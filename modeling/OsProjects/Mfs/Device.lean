import OsProjects.Mfs.Format
import OsProjects.Mfs.Ranges

/-!
# The disk file — block transfers as system calls, and mounts one after another

`mfs_read_block` and `mfs_write_block` move the offset of `fd_disk` and transfer 16384
bytes there; the disk is a regular file. `onFile` runs a handler through these two,
`makeMfsMain` is `main` of `make_mfs.c` behind `open`, and `runSessions` serves some
mounts one after another, each from `load_superblock` to `close`.

* `onFile_run` — on the blocks below `N`, and nowhere else, the file does what the block
  model says;
* `sessions_refine` — formatting and any number of mounts are one run of the file map;
* `shared_descriptor` — two handler threads share the offset: where their transfers go.
-/

namespace OsProjects.Mfs

open Bytes Prog

/-! ## The two transfers -/

namespace Device

/-- `mfs_read_block`. -/
def mfsReadBlock (blockNo : Nat) : FileProg (Option Block) :=
  .lseek (blockNo * mfsBlockSize) fun ok =>
    if !ok then .done none
    else .read mfsBlockSize fun count block =>
      .done (if count = mfsBlockSize then some block else none)

/-- `mfs_write_block`. -/
def mfsWriteBlock (block : Block) (blockNo : Nat) : FileProg Bool :=
  .lseek (blockNo * mfsBlockSize) fun ok =>
    if !ok then .done false
    else .write mfsBlockSize block fun count => .done (count = mfsBlockSize)

end Device

/-- A handler on the disk file. -/
def onFile {α : Type} (p : Io α) : FileProg α :=
  p.through Device.mfsReadBlock fun k b => Device.mfsWriteBlock b k

/-- The disk in a file. -/
abbrev diskOf (f : OpenFile) : Disk := f.view mfsBlockSize

/-- The file shows the disk `d`, and what does not belong to the first `N` blocks is as in
`f₀`. -/
structure Shows (N : Nat) (f₀ f : OpenFile) (d : Disk) : Prop where
  disk : diskOf f = d
  size : f.size = f₀.size
  behind : ∀ i, N * mfsBlockSize ≤ i → f.bytes i = f₀.bytes i

theorem Shows.refl (N : Nat) (f : OpenFile) : Shows N f f (diskOf f) :=
  ⟨rfl, rfl, fun _ _ => rfl⟩

theorem Shows.sized {N : Nat} {f₀ f : OpenFile} {d : Disk} (h : Shows N f₀ f d) (k : Nat) :
    Sized mfsBlockSize (d k) :=
  h.disk ▸ f.sized_view mfsBlockSize k

section Transfers

variable {N : Nat} {f₀ : OpenFile} (hfile : N * mfsBlockSize ≤ f₀.size)
include hfile

/-- Block `k` is read where its place is. -/
theorem Shows.read_at {f : OpenFile} {d : Disk} (h : Shows N f₀ f d) {k : Nat} (hk : k < N) :
    (if (f.seek (k * mfsBlockSize)).readCount mfsBlockSize = mfsBlockSize then
      some (window f.bytes (k * mfsBlockSize)
        ((f.seek (k * mfsBlockSize)).readCount mfsBlockSize)) else none) = some (d k) ∧
    Shows N f₀ ((f.seek (k * mfsBlockSize)).read mfsBlockSize) d := by
  have hin : (k + 1) * mfsBlockSize ≤ f.size := by
    rw [h.size]
    exact (Nat.mul_le_mul_right _ hk).trans hfile
  obtain ⟨hcount, hwindow⟩ := OpenFile.read_block (f := f.seek (k * mfsBlockSize)) rfl hin
  rw [if_pos hcount]
  exact ⟨congrArg some (hwindow.trans (congrFun h.disk k)), h.disk, h.size, h.behind⟩

/-- Block `k` is written where its place is. -/
theorem Shows.write_at {f : OpenFile} {d : Disk} (h : Shows N f₀ f d) {k : Nat} (hk : k < N)
    {b : Block} (hb : Sized mfsBlockSize b) :
    Shows N f₀ ((f.seek (k * mfsBlockSize)).write mfsBlockSize b) (Function.update d k b) := by
  have hin : (k + 1) * mfsBlockSize ≤ f.size := by
    rw [h.size]
    exact (Nat.mul_le_mul_right _ hk).trans hfile
  have hwrote := OpenFile.write_block (f := f.seek (k * mfsBlockSize)) hb rfl hin
  refine ⟨?_, hwrote.size.trans h.size, fun i hi => ?_⟩
  · rw [← h.disk]
    exact hwrote.view
  · rw [← h.behind i hi]
    exact hwrote.behind i ((Nat.mul_le_mul_right _ hk).trans hi)

/-- **Below block `N` the file behaves like the blocks.** -/
theorem onFile_run {α : Type} {p : Io α} {f : OpenFile} {d : Disk} (hp : RunsBelow N p d)
    (h : Shows N f₀ f d) :
    ((onFile p).run f).1 = (p.run d).1 ∧ Shows N f₀ ((onFile p).run f).2 (p.run d).2 := by
  unfold onFile
  refine run_through ?_ ?_ hp h
  · exact fun k f d hk h => h.read_at hfile hk
  · exact fun k b f d hk hb h => ⟨rfl, h.write_at hfile hk hb⟩

end Transfers

/-! ## Formatting and mounting -/

/-- `disk_block_count`. -/
def diskBlockCount (f : OpenFile) : UInt32 := UInt32.ofNat (f.size / mfsBlockSize)

/-- `main` of `make_mfs.c` on the file it has opened. -/
def makeMfsMain (now : UInt64) (f : OpenFile) : Int × OpenFile :=
  (onFile (makeMfs (diskBlockCount f) now)).run f

/-- Calls with their replies. -/
abbrev Log := List (Call × Reply)

/-- The handlers called one after another, with the superblock of the mount. -/
def serve (superblock : MfsSuperblock) : List Call → OpenFile → Log × OpenFile
  | [], f => ([], f)
  | c :: cs, f =>
    let (r, f) := (onFile (handle superblock c)).run f
    let (log, f) := serve superblock cs f
    ((c, r) :: log, f)

/-- `main` of `mfs.c` on the disk file: the calls of a mount with their replies, or nothing
if the disk is refused. -/
def mfsMain (cs : List Call) (f : OpenFile) : Option Log × OpenFile :=
  match (onFile loadSuperblock).run (f.seek 0) with
  | (none, f) => (none, f)
  | (some superblock, f) =>
    let (log, f) := serve superblock cs f
    (some log, f)

/-- Some mounts one after another. -/
def runSessions : List (List Call) → OpenFile → List (Option Log) × OpenFile
  | [], f => ([], f)
  | cs :: rest, f =>
    let (log, f) := mfsMain cs f
    let (logs, f) := runSessions rest f
    (log :: logs, f)

theorem diskBlockCount_le (f : OpenFile) : (diskBlockCount f).toNat * mfsBlockSize ≤ f.size := by
  have hle : (diskBlockCount f).toNat ≤ f.size / mfsBlockSize := by
    rw [diskBlockCount, UInt32.toNat_ofNat']
    exact Nat.mod_le _ _
  exact (Nat.mul_le_mul_right _ hle).trans (Nat.div_mul_le_self _ _)

/-- A write of `make_mfs`, which goes on behind it. -/
theorem below_formatBlock {N k : Nat} {b : Block} {p q : Io Int} (hk : k < N)
    (hb : Sized 16384 b) (hp : Below N (fun _ => True) p) :
    Below N (fun _ => True) (mfsWriteBlock b k >>= fun ok => if !ok then q else p) := by
  refine (below_mfsWriteBlock hk hb).bind fun ok hok => ?_
  rw [hok]
  exact hp

theorem sized_setBits {l : List Nat} (hl : ∀ i ∈ l, i < 131072) {b : Block} (hb : Sized 16384 b) :
    Sized 16384 (l.foldl (fun b i => mfsSetBit b i true) b) := by
  induction l generalizing b with
  | nil => exact hb
  | cons i l ih =>
    rw [List.forall_mem_cons] at hl
    exact ih hl.2 (hb.setBit (by omega) true)

theorem below_makeMfs {N : Nat} (hN : 6 ≤ N) (blockCount : UInt32) (now : UInt64) :
    Below N (fun _ => True) (makeMfs blockCount now) := by
  have hzero : Sized 16384 zero := sized_zero _
  refine stays_ite (fun _ => stays_done trivial) fun _ => ?_
  -- the superblock,
  refine below_formatBlock (by simp only [mfsSuperBlock]; omega)
    (hzero.putRec _ (by decide) _) ?_
  -- the block bitmap,
  refine below_formatBlock (by simp only [mfsBlockBitmapBlock]; omega)
    (sized_setBits (fun i hi => ?_) hzero) ?_
  · have := List.mem_range.mp hi
    simp only [mfsFirstDataBlock] at this
    omega
  -- the inode bitmap,
  refine below_formatBlock (by simp only [mfsInodeBitmapBlock]; omega)
    (hzero.setBit (by decide) true) ?_
  -- the inode table with the root inode,
  refine below_formatBlock (by simp only [mfsInodeTableStart]; omega)
    (hzero.putRec _ (by decide) _) ?_
  -- its second block, which is empty,
  refine below_formatBlock (by simp only [mfsInodeTableStart]; omega) hzero ?_
  -- and the root directory
  refine below_formatBlock (by simp only [mfsRootDirBlock]; omega)
    ((hzero.putRec _ (by decide) _).putRec _ (by decide) _) ?_
  exact stays_done trivial

theorem below_loadSuperblock {N : Nat} (hN : 6 ≤ N) : Below N (fun _ => True) loadSuperblock := by
  refine (below_mfsReadBlock (show mfsSuperBlock < N by simp only [mfsSuperBlock]; omega)).bind ?_
  rintro r ⟨block, rfl, -⟩
  exact stays_ite (fun _ => stays_done trivial) fun _ => stays_done trivial

/-! ## Mounts -/

theorem Call.Admissible.resolved {c : Call} (h : c.Admissible) : Resolved c.path := by
  cases c with
  | read | write => exact h.1
  | _ => exact h

theorem FsRun.append {F F' F'' : FileMap} {log log' : Log} (h : FsRun F log F')
    (h' : FsRun F' log' F'') : FsRun F (log ++ log') F'' := by
  induction h with
  | nil => exact h'
  | cons hstep _ ih => exact .cons hstep (ih h')

section Sessions

variable {N : UInt32} {f₀ f : OpenFile} {d : Disk} (hfile : N.toNat * mfsBlockSize ≤ f₀.size)
  (h128 : 128 ≤ N.toNat) (hN4 : N.toNat ≤ 4096)
include hfile h128 hN4

theorem serve_spec (h : Shows N.toNat f₀ f d) (hinv : FsInv N.toNat d) {cs : List Call}
    (hcs : ∀ c ∈ cs, c.Admissible) :
    (serve (formatSuperblock N) cs f).1.map Prod.fst = cs ∧
    ∃ d', Shows N.toNat f₀ (serve (formatSuperblock N) cs f).2 d' ∧ FsInv N.toNat d' ∧
      FsRun (files d) (serve (formatSuperblock N) cs f).1 (files d') := by
  induction cs generalizing f d with
  | nil => exact ⟨rfl, d, h, hinv, .nil _⟩
  | cons c cs ih =>
    rw [List.forall_mem_cons] at hcs
    -- the call does to the file what it does to the disk
    obtain ⟨hreply, hafter⟩ := onFile_run hfile
      (hinv.within_handle h.sized (by omega) hN4 hcs.1.resolved) h
    obtain ⟨hinv', hstep⟩ := hinv.step hN4 hcs.1
    obtain ⟨hcalls, d', hshows, hend, hrun⟩ := ih hafter hinv' hcs.2
    rw [serve]
    refine ⟨congrArg (c :: ·) hcalls, d', hshows, hend, .cons ?_ hrun⟩
    rw [hreply]
    exact hstep

theorem mfsMain_spec (h : Shows N.toNat f₀ f d) (hinv : FsInv N.toNat d) {cs : List Call}
    (hcs : ∀ c ∈ cs, c.Admissible) :
    ∃ log f' d', mfsMain cs f = (some log, f') ∧ log.map Prod.fst = cs ∧
      Shows N.toNat f₀ f' d' ∧ FsInv N.toNat d' ∧ FsRun (files d) log (files d') := by
  have hopen : Shows N.toNat f₀ (f.seek 0) d := ⟨h.disk, h.size, h.behind⟩
  obtain ⟨hload, hshows⟩ := onFile_run hfile
    ((below_loadSuperblock (by omega)).within h.sized).1 hopen
  rw [hinv.returns_loadSuperblock.run] at hload hshows
  obtain ⟨hcalls, d', hend, hinv', hrun⟩ := serve_spec hfile h128 hN4 hshows hinv hcs
  have hmount : (onFile loadSuperblock).run (f.seek 0) =
      (some (formatSuperblock N), ((onFile loadSuperblock).run (f.seek 0)).2) := Prod.ext hload rfl
  exact ⟨_, _, d', by rw [mfsMain, hmount], hcalls, hend, hinv', hrun⟩

theorem runSessions_spec (h : Shows N.toNat f₀ f d) (hinv : FsInv N.toNat d)
    {sessions : List (List Call)} (hcs : ∀ cs ∈ sessions, ∀ c ∈ cs, c.Admissible) :
    ∃ (logs : List Log) (f' : OpenFile) (d' : Disk), runSessions sessions f = (logs.map some, f') ∧
      logs.map (List.map Prod.fst) = sessions ∧ Shows N.toNat f₀ f' d' ∧
      FsRun (files d) logs.flatten (files d') := by
  -- on the mounts left: nothing is carried from one to the next but the file
  induction sessions generalizing f d with
  | nil => exact ⟨[], f, d, rfl, rfl, h, .nil _⟩
  | cons cs rest ih =>
    rw [List.forall_mem_cons] at hcs
    obtain ⟨log, f₁, d₁, hmain, hcalls, hshows, hinv', hrun⟩ :=
      mfsMain_spec hfile h128 hN4 h hinv hcs.1
    obtain ⟨logs, f', d', hrest, hall, hend, hruns⟩ := ih hshows hinv' hcs.2
    refine ⟨log :: logs, f', d', ?_, ?_, hend, ?_⟩
    · rw [runSessions, hmain]
      simp only [hrest, List.map_cons]
    · rw [List.map_cons, hcalls, hall]
    · exact hrun.append hruns

end Sessions

/-- A disk of another size is refused. -/
theorem makeMfsMain_refused {f : OpenFile} (now : UInt64)
    (h : ¬ (128 ≤ (diskBlockCount f).toNat ∧ (diskBlockCount f).toNat ≤ 4096)) :
    makeMfsMain now f = (1, f) := by
  have hcond : diskBlockCount f < 128 ∨ diskBlockCount f > 4096 := by
    rw [UInt32.lt_iff_toNat_lt, gt_iff_lt, UInt32.lt_iff_toNat_lt]
    have h128 : (128 : UInt32).toNat = 128 := rfl
    have h4096 : (4096 : UInt32).toNat = 4096 := rfl
    omega
  rw [makeMfsMain, makeMfs, if_pos hcond]
  rfl

/-- **The disk file outlives its mounts.** `make_mfs` refuses a file in which it does not count
128 to 4096 blocks, and leaves it alone; it counts in `uint32_t`, so 2 ^ 32 + 128 blocks are
128. Otherwise every later mount accepts the disk, all the calls of all the mounts together
are one run of the file map from the empty map, and the file keeps its size and the bytes
behind the blocks that were counted.
-/
theorem sessions_refine (f₀ : OpenFile) (now : UInt64) :
    (¬ (128 ≤ (diskBlockCount f₀).toNat ∧ (diskBlockCount f₀).toNat ≤ 4096) →
      makeMfsMain now f₀ = (1, f₀)) ∧
    (128 ≤ (diskBlockCount f₀).toNat → (diskBlockCount f₀).toNat ≤ 4096 →
      (makeMfsMain now f₀).1 = 0 ∧ ∀ sessions : List (List Call),
        (∀ cs ∈ sessions, ∀ c ∈ cs, c.Admissible) → ∃ (logs : List Log) (f' : OpenFile),
          runSessions sessions (makeMfsMain now f₀).2 = (logs.map some, f') ∧
          logs.map (List.map Prod.fst) = sessions ∧
          FsRun FileMap.empty logs.flatten (files (diskOf f')) ∧ f'.size = f₀.size ∧
          ∀ i, (diskBlockCount f₀).toNat * mfsBlockSize ≤ i → f'.bytes i = f₀.bytes i) := by
  refine ⟨makeMfsMain_refused now, fun h128 h4096 => ?_⟩
  have hfile := diskBlockCount_le f₀
  -- the file shows the disk of its blocks
  have hshows := Shows.refl (diskBlockCount f₀).toNat f₀
  -- formatting keeps to these blocks
  obtain ⟨hmake, hformat⟩ := onFile_run hfile
    ((below_makeMfs (by omega) (diskBlockCount f₀) now).within hshows.sized).1 hshows
  rw [run_makeMfs h128 h4096] at hmake hformat
  refine ⟨hmake, fun sessions hcs => ?_⟩
  -- so do the sessions
  obtain ⟨logs, f', d', hrun, hcalls, hend, hmap⟩ :=
    runSessions_spec hfile h128 h4096 hformat formatDisk_inv hcs
  rw [files_formatDisk, ← hend.disk] at hmap
  exact ⟨logs, f', hrun, hcalls, hmap, hend.size, hend.behind⟩

/-- A file of 128 empty blocks. -/
def demoFile : OpenFile := ⟨zero, 128 * mfsBlockSize, 0, sized_zero _⟩

/-- A file is created and written in one mount and read in the next. -/
def demoSessions : List (List Call) :=
  [[.create pathA 0o644 0, .write pathA [104, 105] 0 0],
    [.read pathA 10 0, .getattr pathA]]

theorem sessions_refine_demo : ∃ (logs : List Log) (f' : OpenFile),
    runSessions demoSessions (makeMfsMain 0 demoFile).2 = (logs.map some, f') ∧
    FsRun FileMap.empty logs.flatten (files (diskOf f')) ∧ f'.size = 2097152 := by
  obtain ⟨logs, f', hrun, -, hmap, hsize, -⟩ :=
    ((sessions_refine demoFile 0).2 (by decide) (by decide)).2 demoSessions (by decide)
  exact ⟨logs, f', hrun, hmap, hsize⟩

/-! ## Two threads on one descriptor -/

section Shared

variable {N : Nat} {f₀ f : OpenFile} (hfile : N * mfsBlockSize ≤ f₀.size)
  {α γ : Type} {Q : α → Prop} {R : γ → Prop}
include hfile

/-- The two calls of a transfer, one directly behind the other. -/
theorem step_onFile {p : Io α} {d : Disk} (hp : Below N Q p) (h : Shows N f₀ f d) :
    ∃ f', FileProg.step (FileProg.step (onFile p) f).1 (FileProg.step (onFile p) f).2 =
        (onFile (p.step d).1, f') ∧ Shows N f₀ f' (p.step d).2 ∧ Below N Q (p.step d).1 := by
  cases p with
  | done a => exact ⟨f, rfl, h, hp⟩
  | read k next =>
    obtain ⟨hk, hnext⟩ := stays_read.mp hp
    obtain ⟨hread, hshows⟩ := h.read_at hfile hk
    exact ⟨_, Prod.ext (congrArg (fun r => onFile (next r)) hread) rfl, hshows, hnext _ (h.sized k)⟩
  | write k b next =>
    obtain ⟨hk, hb, hnext⟩ := stays_write.mp hp
    exact ⟨_, rfl, h.write_at hfile hk hb, hnext⟩

/-- **Unsplit transfers are the transfers of the block model.** If the call behind every
`lseek` is the transfer it was made for, two programs interleave on the file as they do
on blocks. -/
theorem interleave_onFile {p : Io α} {q : Io γ} {d : Disk} (hp : Below N Q p) (hq : Below N R q)
    (h : Shows N f₀ f d) (sched : List Bool) :
    ∃ f', FileProg.interleave (sched.flatMap fun turn => [turn, turn]) (onFile p) (onFile q) f =
        (onFile (interleave sched p q d).1, onFile (interleave sched p q d).2.1, f') ∧
      Shows N f₀ f' (interleave sched p q d).2.2 := by
  -- on the turns
  induction sched generalizing p q f d with
  | nil => exact ⟨f, rfl, h⟩
  | cons turn sched ih =>
    cases turn with
    -- the first thread transfers a block, in two calls
    | true =>
      obtain ⟨f₁, hstep, hshows, hp₁⟩ := step_onFile hfile hp h
      obtain ⟨f', hrest, hend⟩ := ih hp₁ hq hshows
      have htwice := congrArg (fun r => FileProg.interleave (sched.flatMap fun turn => [turn, turn])
        r.1 (onFile q) r.2) hstep
      exact ⟨f', htwice.trans hrest, hend⟩
    -- the second thread does
    | false =>
      obtain ⟨f₁, hstep, hshows, hq₁⟩ := step_onFile hfile hq h
      obtain ⟨f', hrest, hend⟩ := ih hp hq₁ hshows
      have htwice := congrArg (fun r => FileProg.interleave (sched.flatMap fun turn => [turn, turn])
        (onFile p) r.1 r.2) hstep
      exact ⟨f', htwice.trans hrest, hend⟩

/-- One transfer, of whatever block. -/
inductive Transfer
  | read
  | write (block : Block)

/-- The block a transfer writes is a block. -/
def Transfer.Sized : Transfer → Prop
  | .read => True
  | .write block => Bytes.Sized mfsBlockSize block

/-- The transfer of block `k`: the block, if it succeeds. -/
def Transfer.at : Transfer → Nat → Io (Option Block)
  | .read, k => mfsReadBlock k
  | .write block, k => do
    let ok ← mfsWriteBlock block k
    return if ok then some block else none

/-- What is left of a transfer behind its `lseek`, which is the same for all blocks. -/
def Transfer.pending : Transfer → FileProg (Option Block)
  | .read => .read mfsBlockSize fun count block =>
      .done (if count = mfsBlockSize then some block else none)
  | .write block => .write mfsBlockSize block fun count =>
      .done (if decide (count = mfsBlockSize) then some block else none)

omit hfile in
theorem Transfer.seek_step (t : Transfer) (k : Nat) :
    FileProg.step (onFile (t.at k)) f = (t.pending, f.seek (k * mfsBlockSize)) := by
  cases t <;> rfl

/-- The transfer goes where the offset is, and leaves it behind the block. -/
theorem Transfer.pending_step {t : Transfer} {d : Disk} {j : Nat} (ht : t.Sized)
    (h : Shows N f₀ f d) (hj : j < N) (hoff : f.offset = j * mfsBlockSize) :
    ∃ f', FileProg.step t.pending f = (.done (run (t.at j) d).1, f') ∧
      Shows N f₀ f' (run (t.at j) d).2 ∧ f'.offset = (j + 1) * mfsBlockSize := by
  -- the offset is where a seek would have put it
  have hseek : f = f.seek (j * mfsBlockSize) := hoff ▸ rfl
  rw [hseek, Nat.succ_mul]
  cases t with
  | read =>
    obtain ⟨hread, hshows⟩ := h.read_at hfile hj
    refine ⟨_, Prod.ext (congrArg FileProg.done hread) rfl, hshows, congrArg (_ + ·) ?_⟩
    -- a read of a block that the file has is not short
    by_contra hshort
    rw [if_neg hshort] at hread
    cases hread
  | write block => exact ⟨_, rfl, h.write_at hfile hj ht, rfl⟩

/-- **Split transfers go astray.** When both threads have moved the offset, the first transfer
takes the block of the last `lseek` and the second the block behind it.
-/
theorem transfers_split (k₁ : Nat) {k₂ : Nat} {t₁ t₂ : Transfer} {d : Disk} (ht₁ : t₁.Sized)
    (ht₂ : t₂.Sized) (h : Shows N f₀ f d) (hk : k₂ + 1 < N) :
    (∃ f', FileProg.interleave [true, false, true, false] (onFile (t₁.at k₁))
          (onFile (t₂.at k₂)) f =
        (.done (run (t₁.at k₂) d).1,
          .done (run (t₂.at (k₂ + 1)) (run (t₁.at k₂) d).2).1, f') ∧
      Shows N f₀ f' (run (t₂.at (k₂ + 1)) (run (t₁.at k₂) d).2).2) ∧
    (∃ f', FileProg.interleave [true, false, false, true] (onFile (t₁.at k₁))
          (onFile (t₂.at k₂)) f =
        (.done (run (t₁.at (k₂ + 1)) (run (t₂.at k₂) d).2).1,
          .done (run (t₂.at k₂) d).1, f') ∧
      Shows N f₀ f' (run (t₁.at (k₂ + 1)) (run (t₂.at k₂) d).2).2) := by
  -- the offset behind both `lseek`s
  have hboth : Shows N f₀ ((f.seek (k₁ * mfsBlockSize)).seek (k₂ * mfsBlockSize)) d :=
    ⟨h.disk, h.size, h.behind⟩
  constructor
  · obtain ⟨f₁, hfirst, hshows₁, hoff₁⟩ := t₁.pending_step hfile ht₁ hboth (by omega) rfl
    obtain ⟨f', hsecond, hshows, -⟩ := t₂.pending_step hfile ht₂ hshows₁ hk hoff₁
    refine ⟨f', ?_, hshows⟩
    simp only [FileProg.interleave, Transfer.seek_step, hfirst, hsecond]
  · obtain ⟨f₁, hfirst, hshows₁, hoff₁⟩ := t₂.pending_step hfile ht₂ hboth (by omega) rfl
    obtain ⟨f', hsecond, hshows, -⟩ := t₁.pending_step hfile ht₁ hshows₁ hk hoff₁
    refine ⟨f', ?_, hshows⟩
    simp only [FileProg.interleave, Transfer.seek_step, hfirst, hsecond]

end Shared

/-- The calls that transfer blocks with fixed numbers only. -/
def Call.Fixed : Call → Prop
  | .getattr _ | .readdir _ | .create _ _ _ | .openFile _ => True
  | .unlink _ | .read _ _ _ | .write _ _ _ _ => False

theorem below_handle {N : Nat} (hN : 6 ≤ N) {superblock : MfsSuperblock} {c : Call}
    (hc : c.Fixed) : Below N (fun _ => True) (handle superblock c) := by
  cases c with
  | getattr path => exact (below_mfsGetattr hN path).bind fun _ _ => stays_done trivial
  | readdir path => exact (below_mfsReaddir hN path).bind fun _ _ => stays_done trivial
  | create path mode now =>
    exact (below_mfsCreate hN path mode now).bind fun _ _ => stays_done trivial
  | openFile path => exact (below_mfsOpen hN path).bind fun _ _ => stays_done trivial
  | unlink | read | write => exact absurd hc id

/-- **The threads share the offset of the descriptor.** While every transfer directly follows its
`lseek`, the calls with fixed blocks interleave on the file as on blocks that are
transferred whole. Where two threads have both moved the offset, whatever they are about to
transfer, the first transfer takes the block of the last `lseek` and the second the block
behind it.
-/
theorem shared_descriptor {N : Nat} (superblock : MfsSuperblock) {f : OpenFile} (hN : 6 ≤ N)
    (hfile : N * mfsBlockSize ≤ f.size) :
    (∀ (c₁ c₂ : Call) (sched : List Bool), c₁.Fixed → c₂.Fixed → ∃ f',
      FileProg.interleave (sched.flatMap fun turn => [turn, turn])
          (onFile (handle superblock c₁)) (onFile (handle superblock c₂)) f =
        (onFile (interleave sched (handle superblock c₁) (handle superblock c₂) (diskOf f)).1,
          onFile (interleave sched (handle superblock c₁) (handle superblock c₂) (diskOf f)).2.1,
          f') ∧
      diskOf f' =
        (interleave sched (handle superblock c₁) (handle superblock c₂) (diskOf f)).2.2) ∧
    ∀ (t₁ t₂ : Transfer) (k₁ k₂ : Nat), t₁.Sized → t₂.Sized → k₂ + 1 < N →
      (∃ f', FileProg.interleave [true, false, true, false] (onFile (t₁.at k₁))
            (onFile (t₂.at k₂)) f =
          (.done (run (t₁.at k₂) (diskOf f)).1,
            .done (run (t₂.at (k₂ + 1)) (run (t₁.at k₂) (diskOf f)).2).1, f') ∧
        diskOf f' = (run (t₂.at (k₂ + 1)) (run (t₁.at k₂) (diskOf f)).2).2) ∧
      ∃ f', FileProg.interleave [true, false, false, true] (onFile (t₁.at k₁))
            (onFile (t₂.at k₂)) f =
          (.done (run (t₁.at (k₂ + 1)) (run (t₂.at k₂) (diskOf f)).2).1,
            .done (run (t₂.at k₂) (diskOf f)).1, f') ∧
        diskOf f' = (run (t₁.at (k₂ + 1)) (run (t₂.at k₂) (diskOf f)).2).2 := by
  have hshows := Shows.refl N f
  refine ⟨fun c₁ c₂ sched hc₁ hc₂ => ?_, fun t₁ t₂ k₁ k₂ ht₁ ht₂ hk => ?_⟩
  · -- with both calls of a transfer in one turn
    obtain ⟨f', hrun, hend⟩ :=
      interleave_onFile hfile (below_handle hN hc₁) (below_handle hN hc₂) hshows sched
    exact ⟨f', hrun, hend.disk⟩
  · -- with the two calls taken apart
    obtain ⟨⟨f₁, hrun₁, hend₁⟩, f₂, hrun₂, hend₂⟩ :=
      transfers_split hfile k₁ ht₁ ht₂ hshows hk
    exact ⟨⟨f₁, hrun₁, hend₁.disk⟩, f₂, hrun₂, hend₂.disk⟩

/-- A lookup and a scan of the empty directory take turns; and a directory meant for block 5
replaces the superblock, which the other thread was about to read. -/
theorem shared_descriptor_demo :
    (∃ f', FileProg.interleave [true, true, false, false]
      (onFile (handle (formatSuperblock 128) (.openFile pathA)))
      (onFile (handle (formatSuperblock 128) (.readdir ⟨[47], by decide⟩))) demoFile =
        (.done (.status (-enoent)), .done (.names (.ok [])), f') ∧ diskOf f' = diskOf demoFile) ∧
    ∃ f', FileProg.interleave [true, false, true, false]
      (onFile ((Transfer.write formatRootDir).at 5)) (onFile (Transfer.read.at 0)) demoFile =
        (.done (some formatRootDir), .done (some (diskOf demoFile 1)), f') ∧
      diskOf f' 0 = formatRootDir := by
  -- both halves for this file
  have hboth := shared_descriptor (N := 128) (f := demoFile) (formatSuperblock 128) (by decide)
    (by decide)
  have hsized : (Transfer.write formatRootDir).Sized :=
    ((sized_zero _).putRec _ (by decide) _).putRec _ (by decide) _
  constructor
  · -- in turn
    obtain ⟨f', hrun, hend⟩ := hboth.1 (.openFile pathA) (.readdir ⟨[47], by decide⟩) [true, false]
      trivial trivial
    exact ⟨f', hrun, hend⟩
  · -- taken apart
    obtain ⟨f', hrun, hend⟩ := (hboth.2 (.write formatRootDir) .read 5 0 hsized trivial
      (by decide)).1
    exact ⟨f', hrun, by rw [hend]; rfl⟩

end OsProjects.Mfs
