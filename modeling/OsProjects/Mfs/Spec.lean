import Mathlib.Data.Set.Card
import OsProjects.Mfs.Calls

/-!
# The abstract file system — one flat map from names to files

What MFS is for, said without blocks: a finite map from names to files, a file being
its permissions and its bytes. `FsStep F c r F'` says that the call `c` on the file map
`F` may be answered with `r` and leave `F'`; `FsRun` is a sequence of such steps. The
results below say that the handlers do no more than this.
-/

namespace OsProjects.Mfs

/-- A file as a client sees it. -/
structure File where
  mode : UInt32
  bytes : List UInt8
  deriving DecidableEq

/-- A map from names to files. -/
abbrev FileMap := List UInt8 → Option File

namespace FileMap

/-- The file map with no files. -/
def empty : FileMap := fun _ => none

/-- The names of a file map. -/
def names (F : FileMap) : Set (List UInt8) := {text | F text ≠ none}

end FileMap

/-- The path names the file `text` of the root directory. -/
structure FilePath (path : CString) (text : List UInt8) : Prop where
  split : path.val = 47 :: text
  nonempty : text ≠ []
  slash_free : 47 ∉ text

/-- The answers to a call on a file map. -/
inductive FsStep (F : FileMap) : Call → Reply → FileMap → Prop
  | getattr {path text f st} : FilePath path text → F text = some f →
      st.size.toNat = f.bytes.length → st.mode = sIfreg ||| f.mode → st.nlink = 1 →
      FsStep F (.getattr path) (.attr (.ok st)) F
  | getattrRoot {path st} : path.val = [47] → sIsdir st.mode = true → st.nlink = 2 →
      FsStep F (.getattr path) (.attr (.ok st)) F
  | getattrAbsent {path} : path.val ≠ [47] → (∀ text, FilePath path text → F text = none) →
      FsStep F (.getattr path) (.attr (.error (-enoent))) F
  | readdir {path texts} : path.val = [47] → texts.Nodup → (∀ text, text ∈ texts ↔ F text ≠ none) →
      FsStep F (.readdir path) (.names (.ok ([46] :: [46, 46] :: texts))) F
  | readdirElse {path} : path.val ≠ [47] → FsStep F (.readdir path) (.names (.error (-enoent))) F
  | create {path mode now text} : FilePath path text → text.length ≤ 31 → F text = none →
      F.names.encard < 254 →
      FsStep F (.create path mode now) (.status 0)
        (Function.update F text (some ⟨mode &&& 0o777, []⟩))
  | createLong {path mode now text} : FilePath path text → 31 < text.length →
      FsStep F (.create path mode now) (.status (-enametoolong)) F
  | createExists {path mode now text} : FilePath path text → F text ≠ none →
      FsStep F (.create path mode now) (.status (-eexist)) F
  | createFull {path mode now text} : FilePath path text → F text = none →
      254 ≤ F.names.encard → FsStep F (.create path mode now) (.status (-enospc)) F
  | createElse {path mode now} : (∀ text, ¬ FilePath path text) →
      FsStep F (.create path mode now) (.status (-einval)) F
  | openFile {path text} : FilePath path text → F text ≠ none →
      FsStep F (.openFile path) (.status 0) F
  | openAbsent {path text} : FilePath path text → F text = none →
      FsStep F (.openFile path) (.status (-enoent)) F
  | openElse {path} : (∀ text, ¬ FilePath path text) →
      FsStep F (.openFile path) (.status (-einval)) F
  | unlink {path text} : FilePath path text → F text ≠ none →
      FsStep F (.unlink path) (.status 0) (Function.update F text none)
  | unlinkAbsent {path text} : FilePath path text → F text = none →
      FsStep F (.unlink path) (.status (-enoent)) F
  | unlinkElse {path} : (∀ text, ¬ FilePath path text) →
      FsStep F (.unlink path) (.status (-einval)) F
  | read {path size text f} {offset : Nat} : FilePath path text → F text = some f →
      FsStep F (.read path size offset)
        (.data ((f.bytes.drop offset).take size).length ((f.bytes.drop offset).take size)) F
  | readNothing {path offset} : FsStep F (.read path 0 offset) (.data 0 []) F
  | readAbsent {path size offset text} : size ≠ 0 → FilePath path text → F text = none →
      FsStep F (.read path size offset) (.data (-enoent) []) F
  | readElse {path size offset} : size ≠ 0 → (∀ text, ¬ FilePath path text) →
      FsStep F (.read path size offset) (.data (-einval) []) F
  | write {path buf now text f} {m : Nat} : FilePath path text → F text = some f → 0 < m →
      m ≤ buf.length → FsStep F (.write path buf f.bytes.length now) (.status m)
        (Function.update F text (some ⟨f.mode, f.bytes ++ buf.take m⟩))
  | writeFull {path buf now text f} : buf ≠ [] → FilePath path text → F text = some f →
      FsStep F (.write path buf f.bytes.length now) (.status (-enospc)) F
  | writeInside {path buf now text f} {offset : Int} : buf ≠ [] → FilePath path text →
      F text = some f → offset ≠ (f.bytes.length : Int) →
      FsStep F (.write path buf offset now) (.status (-eopnotsupp)) F
  | writeNothing {path offset now} : FsStep F (.write path [] offset now) (.status 0) F
  | writeAbsent {path buf offset now text} : buf ≠ [] → FilePath path text → F text = none →
      FsStep F (.write path buf offset now) (.status (-enoent)) F
  | writeElse {path buf offset now} : buf ≠ [] → (∀ text, ¬ FilePath path text) →
      FsStep F (.write path buf offset now) (.status (-einval)) F

/-- A sequence of calls with their answers. -/
inductive FsRun : FileMap → List (Call × Reply) → FileMap → Prop
  | nil (F : FileMap) : FsRun F [] F
  | cons {F F' F'' : FileMap} {c : Call} {r : Reply} {rest : List (Call × Reply)} :
      FsStep F c r F' → FsRun F' rest F'' → FsRun F ((c, r) :: rest) F''

/-- A path names one file. -/
theorem FilePath.unique {path : CString} {text text' : List UInt8} (h : FilePath path text)
    (h' : FilePath path text') : text = text' :=
  List.tail_eq_of_cons_eq (h.split.symm.trans h'.split)

end OsProjects.Mfs
