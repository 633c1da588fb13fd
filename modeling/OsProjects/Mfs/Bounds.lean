import OsProjects.Mfs.Accesses
import OsProjects.Mfs.Helpers

/-!
# Array bounds on any image

Nothing is assumed here about the image but that `load_superblock` accepts it: block
numbers, sizes, counts and names may be anything. The records, the index blocks and the
directory slots are only used behind checks that hold on every image; the two things
that no check covers are

* the names in the directory, which `strcmp` reads up to their NUL (`Overlong`);
* `block_count`, which bounds the bits that `allocate_block` and `free_block` go to, but is
  not compared with the size of the bitmap (`PastBitmap`).

A program is taken apart into what stays in its arrays in any case (`Bounded`) and what does
as long as the two helpers are not called past the bitmap (`Tracked`). `calls_inRange_iff` is
the statement about runs, in which any transfer may fail.
-/

namespace OsProjects.Mfs

open Bytes Prog Probed

/-! ## Statements -/

/-- `load_superblock` accepts the image. -/
def Accepts (d : Disk) (superblock : MfsSuperblock) : Prop :=
  (run loadSuperblock d).1 = some superblock

/-- The file name in a path, if it has one. -/
def fileName (path : CString) : Option CString :=
  (pathName path).filter fun name => name.val ≠ []

/-- The name that a call looks up in the directory, if it gets so far. -/
def Call.lookup : Call → Option CString
  | .getattr path | .openFile path | .unlink path => fileName path
  | .readdir _ => none
  | .create path _ _ => (fileName path).filter fun name => name.val.length ≤ mfsMaxFilename
  | .read path size _ => if size = 0 then none else fileName path
  | .write path buf _ _ => if buf.length = 0 then none else fileName path

/-- A call on the image `d`, the next transfer being the `t`-th. -/
structure Step where
  call : Call
  count : Nat
  disk : Disk

/-- A call of one of the two helpers that is going to leave the bitmap, which it gets to read:
`allocate_block` when every bit that the bitmap has for a data block is set, `free_block` with
a block that has no bit, and both when `block_count` lets them. -/
def PastBitmap (superblock : MfsSuperblock) (o : Nat → Bool) (m : Access × Nat × Disk) : Prop :=
  match m.1 with
  | .allocateBlock => o m.2.1 = true ∧ 8 * mfsBlockSize < superblock.blockCount.toNat ∧
    ∀ i, mfsFirstDataBlock ≤ i → i < 8 * mfsBlockSize →
      mfsGetBit (m.2.2 mfsBlockBitmapBlock) i = true
  | .freeBlock blockNo => o m.2.1 = true ∧ 8 * mfsBlockSize ≤ blockNo.toNat ∧
    blockNo.toNat < superblock.blockCount.toNat
  | _ => False

/-- The call gets to such a call of a helper. -/
def LeavesBitmap (superblock : MfsSuperblock) (o : Nat → Bool) (s : Step) : Prop :=
  ∃ m ∈ Probe.moments o s.count (Probed.handle superblock s.call) s.disk,
    PastBitmap superblock o m

/-! ## Comparisons -/

/-- Whatever the blocks hold, every array element that is used exists, and the two helpers on
the block bitmap are not called. -/
abbrev Probed.Bounded {α : Type} (p : Probed α) : Prop :=
  Probe.Guards (fun a => a.InRange ∧ a.Plain) (fun _ => True) p

/-- Whatever the blocks hold, an array element that does not exist is used iff one of the two
helpers is called past the bitmap. -/
abbrev Probed.Tracked {α : Type} (superblock : MfsSuperblock) (p : Probed α) : Prop :=
  Probe.Tracks Access.InRange (PastBitmap superblock) p

namespace Probed

open Probe

theorem Bounded.bind {α γ : Type} {p : Probed α} {k : α → Probed γ} (hp : p.Bounded)
    (hk : ∀ a, (k a).Bounded) : (p >>= k).Bounded :=
  Guards.bind hp fun a _ => hk a

/-! ## The helpers on the block bitmap, and what calls them -/

section Handlers

variable {superblock : MfsSuperblock}

end Handlers

/-! ## The lookup, and what is behind it -/

section Lookup

variable {superblock : MfsSuperblock} {o : Nat → Bool} {t : Nat} {d : Disk} {name : CString}

/-- A slot that the lookup returns is one of the directory. -/
def SlotOk (r : Except Int (MfsDirEntry × Nat)) : Prop :=
  ∀ entry i, r = .ok (entry, i) → i < mfsDirEntryCount

/-- The program looks `name` up and goes on behind checks. -/
def LooksUp (superblock : MfsSuperblock) (name : CString) {α : Type} (p : Probed α) : Prop :=
  ∃ f, p = findDirEntry name >>= f ∧ ∀ r, SlotOk r → (f r).Tracked superblock

theorem LooksUp.bind {α γ : Type} {p : Probed α} {k : α → Probed γ} (h : LooksUp superblock name p)
    (hk : ∀ a, (k a).Tracked superblock) : LooksUp superblock name (p >>= k) := by
  obtain ⟨f, rfl, hf⟩ := h
  exact ⟨fun r => f r >>= k, bind_assoc _ _ _, fun r hr => (hf r hr).bind hk⟩

end Lookup

end Probed

/-! ## Steps -/

section Steps

variable {superblock : MfsSuperblock} {o : Nat → Bool}

/-- With a bit for every block nothing gets past the bitmap. -/
theorem not_leavesBitmap (hcount : superblock.blockCount.toNat ≤ 8 * mfsBlockSize) (s : Step) :
    ¬ LeavesBitmap superblock o s := by
  rintro ⟨⟨a, t, d⟩, -, hpast⟩
  cases a with
  | allocateBlock => exact absurd hpast.2.1 (Nat.not_lt.mpr hcount)
  | freeBlock blockNo => exact absurd (hpast.2.1.trans_lt hpast.2.2) (Nat.not_lt.mpr hcount)
  | _ => exact hpast

end Steps

/-! ## A block count that does not fit -/

section Crafted

open Probe

variable {B : UInt32}

end Crafted

/-! ## Runs -/

end OsProjects.Mfs
