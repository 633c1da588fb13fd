import OsProjects.Mfs.Crash

/-!
# Two appends at once — apart as long as they do not meet on a metadata block

`mfs.c` has no lock, so two handler threads interleave block by block. Two writes to
different files disturb each other when both have read the same metadata block and both
are about to write it back: the second write undoes the first (`appends_clash`).
`appends_apart` says that nothing else can go wrong.
-/

namespace OsProjects.Mfs

open Bytes Prog

/-- What two appends to the files `n₁` and `n₂` of the image `d` should leave when both
have returned: no shared block, and in each file the old bytes followed by those its own
call reported. -/
structure AppendsApart (d d' : Disk) (n₁ n₂ : Nat) (buf₁ buf₂ : List UInt8) (rc₁ rc₂ : Int) :
    Prop where
  unshared : ∀ b, Ref d' n₁ b → ¬ Ref d' n₂ b
  content₁ : content d' n₁ = content d n₁ ++ buf₁.take rc₁.toNat
  content₂ : content d' n₂ = content d n₂ ++ buf₂.take rc₂.toNat
  size₁ : sizeAt d' n₁ = sizeAt d n₁ + rc₁.toNat
  size₂ : sizeAt d' n₂ = sizeAt d n₂ + rc₂.toNat

/-- The reported bytes are the appended ones. -/
theorem WriteReply.toNat_eq {buf : List UInt8} {offset : Int} {size m : Nat} {rc : Int}
    (h : WriteReply buf offset size m rc) : rc.toNat = m ∧ m ≤ buf.length := by
  cases h with
  | empty => exact ⟨rfl, Nat.zero_le _⟩
  | notAppend => exact ⟨rfl, Nat.zero_le _⟩
  | noSpace => exact ⟨rfl, Nat.zero_le _⟩
  | wrote _ hle => exact ⟨Int.toNat_natCast _, hle⟩

section Apart

variable {N : UInt32} {d : Disk} {path₁ path₂ name₁ name₂ : CString} {s₁ s₂ n₁ n₂ : Nat}

/-- **Two appends that never meet on a metadata block do not interfere.** -/
theorem appends_apart (h : Reachable N d) (hpath₁ : pathName path₁ = some name₁)
    (hpath₂ : pathName path₂ = some name₂) (hres₁ : Resolved path₁) (hres₂ : Resolved path₂)
    (hn₁ : Named d name₁.val s₁ n₁) (hn₂ : Named d name₂.val s₂ n₂) (hne : name₁.val ≠ name₂.val)
    (buf₁ buf₂ : List UInt8) (offset₁ offset₂ : Int) (now₁ now₂ : UInt64) (sched : List Bool)
    (hfree : ClashFree (· < 6) sched (mfsWrite (formatSuperblock N) path₁ buf₁ offset₁ now₁)
      (mfsWrite (formatSuperblock N) path₂ buf₂ offset₂ now₂) d) {r : Io Int × Io Int × Disk}
    (hend : interleave sched (mfsWrite (formatSuperblock N) path₁ buf₁ offset₁ now₁)
      (mfsWrite (formatSuperblock N) path₂ buf₂ offset₂ now₂) d = r) :
    r.2.2 5 = d 5 ∧ (∀ b, Ref r.2.2 n₁ b → ¬ Ref r.2.2 n₂ b) ∧
    ∀ rc₁ rc₂, r.1.result = some rc₁ → r.2.1.result = some rc₂ →
      AppendsApart d r.2.2 n₁ n₂ buf₁ buf₂ rc₁ rc₂ := by
  obtain ⟨p, q, d'⟩ := r
  obtain ⟨hinv, -, hN4⟩ := h.inv
  -- two names, two slots, two inodes
  have hnn : n₁ ≠ n₂ := fun heq => by
    subst heq
    have hslot := hinv.dir.inodeNo_inj s₁ s₂ n₁ hn₁.toFileAt hn₂.toFileAt
    subst hslot
    exact hne (hn₁.text_eq.symm.trans hn₂.text_eq)
  have hrange₁ := hinv.dir.file_range hn₁.toFileAt.isFile
  have hrange₂ := hinv.dir.file_range hn₂.toFileAt.isFile
  obtain ⟨h11, h12⟩ := hres₁.name hpath₁
  obtain ⟨h21, h22⟩ := hres₂.name hpath₂
  -- each write by its own rule, the guarantee of one being what the other relies on
  have hwp₁ : wp (writer N.toNat n₁ False)
      (mfsWrite (formatSuperblock N) path₁ buf₁ offset₁ now₁) _ hinv.world :=
    wp_mfsWrite hpath₁ h11 h12 hn₁ (hinv.appended hn₁.toFileAt.isFile) rfl hN4
  have hwp₂ : wp (writer N.toNat n₂ False)
      (mfsWrite (formatSuperblock N) path₂ buf₂ offset₂ now₂) _ hinv.world :=
    wp_mfsWrite hpath₂ h21 h22 hn₂ (hinv.appended hn₂.toFileAt.isFile) rfl hN4
  obtain ⟨w', hdir, hdisk, hend₁, hend₂⟩ := interleave_of_wp (T := SameDir) hwp₁ hwp₂ hfree rfl rfl
    (fun _ _ hg => hg.rely (by omega) hrange₂.2 (Ne.symm hnn))
    (fun _ _ hg => hg.rely (by omega) hrange₁.2 hnn) SameDir.refl (fun _ _ _ => SameDir.trans)
    (fun _ _ hg => hg.dir) (fun _ _ hg => hg.dir)
    (fun rc w₁ w₂ hpost hrely hf => (hpost hf).imp fun m hm => ⟨hm.1, hm.2.stable hrely⟩)
    (fun rc w₁ w₂ hpost hrely hf => (hpost hf).imp fun m hm => ⟨hm.1, hm.2.stable hrely⟩)
  change w'.disk = _ at hdisk
  change wp _ (interleave sched _ _ d).1 _ w' at hend₁
  change wp _ (interleave sched _ _ d).2.1 _ w' at hend₂
  change _ = (interleave sched _ _ d).2.2 at hdisk
  rw [hend] at hdisk hend₁ hend₂
  subst hdisk
  -- the world at the end keeps the blocks of the two files apart
  have hfile₁ : IsFile w'.disk n₁ := (isFile_congr hdir.rootDir n₁).mpr hn₁.toFileAt.isFile
  have hfile₂ : IsFile w'.disk n₂ := (isFile_congr hdir.rootDir n₂).mpr hn₂.toFileAt.isFile
  have happart : ∀ b, Ref w'.disk n₁ b → ¬ Ref w'.disk n₂ b := fun b hb₁ hb₂ =>
    hnn (w'.blocks.disjoint n₁ n₂ b (w'.blocks.ref n₁ b hfile₁ hb₁) (w'.blocks.ref n₂ b hfile₂ hb₂))
  refine ⟨hdir.rootDir, happart, ?_⟩
  intro rc₁ rc₂ hrc₁ hrc₂
  -- both have returned, so both postconditions hold
  rw [eq_done_of_result hrc₁] at hend₁
  rw [eq_done_of_result hrc₂] at hend₂
  obtain ⟨m₁, hreply₁, happ₁⟩ := wp_done.mp hend₁ id
  obtain ⟨m₂, hreply₂, happ₂⟩ := wp_done.mp hend₂ id
  obtain ⟨hm₁, hle₁⟩ := hreply₁.toNat_eq
  obtain ⟨hm₂, hle₂⟩ := hreply₂.toNat_eq
  have hcontent₁ := happ₁.content
  have hcontent₂ := happ₂.content
  rw [← hm₁] at hcontent₁ hle₁
  rw [← hm₂] at hcontent₂ hle₂
  refine ⟨happart, hcontent₁, hcontent₂, ?_, ?_⟩
  · rw [← content_length, ← content_length, hcontent₁, List.length_append,
      List.length_take_of_le hle₁]
  · rw [← content_length, ← content_length, hcontent₂, List.length_append,
      List.length_take_of_le hle₂]

end Apart

/-! ## The smallest clash -/

/-- A byte written to `/a`. -/
def writeA : Io Int := mfsWrite (formatSuperblock 128) pathA [120] 0 0

/-- A byte written to `/b`. -/
def writeB : Io Int := mfsWrite (formatSuperblock 128) pathB [121] 0 0

/-- Both handlers read the block bitmap before one of them writes it. -/
def clashing : List Bool :=
  [true, true, true, false, false, false, true, false] ++ List.replicate 10 true ++
    List.replicate 10 false

/-- The first handler is two transfers ahead, then they take turns. -/
def turns : List Bool := [true, true] ++ (List.replicate 14 [false, true]).flatten

theorem appends_apart_demo :
    AppendsApart twoFiles (interleave turns writeA writeB twoFiles).2.2 2 3 [120] [121] 1 1 :=
  (appends_apart twoFiles_reachable (show pathName pathA = some ⟨[97], by decide⟩ by decide)
    (show pathName pathB = some ⟨[98], by decide⟩ by decide) (by decide) (by decide)
    twoFiles_named.1 twoFiles_named.2 (by decide) [120] [121] 0 0 0 0 turns (by decide +kernel)
    rfl).2.2 1 1 (by decide +kernel) (by decide +kernel)

/-- Without a lock the two handlers can take the same block: not every interleaving of two
appends keeps the files apart. -/
theorem appends_clash : ¬ ∀ (N : UInt32) (d : Disk) (path₁ path₂ name₁ name₂ : CString)
    (s₁ s₂ n₁ n₂ : Nat) (buf₁ buf₂ : List UInt8) (offset₁ offset₂ : Int) (now₁ now₂ : UInt64)
    (sched : List Bool) (r : Io Int × Io Int × Disk) (rc₁ rc₂ : Int), Reachable N d →
    pathName path₁ = some name₁ → pathName path₂ = some name₂ → Resolved path₁ → Resolved path₂ →
    Named d name₁.val s₁ n₁ → Named d name₂.val s₂ n₂ → name₁.val ≠ name₂.val →
    interleave sched (mfsWrite (formatSuperblock N) path₁ buf₁ offset₁ now₁)
      (mfsWrite (formatSuperblock N) path₂ buf₂ offset₂ now₂) d = r →
    r.1.result = some rc₁ → r.2.1.result = some rc₂ →
    AppendsApart d r.2.2 n₁ n₂ buf₁ buf₂ rc₁ rc₂ := by
  intro hall
  have hapart := hall 128 twoFiles pathA pathB ⟨[97], by decide⟩ ⟨[98], by decide⟩ 2 3 2 3 [120]
    [121] 0 0 0 0 clashing _ 1 1 twoFiles_reachable (by decide) (by decide) (by decide) (by decide)
    twoFiles_named.1 twoFiles_named.2 (by decide) rfl (by decide +kernel) (by decide +kernel)
  -- block 6 is the index block of both
  exact hapart.unshared 6 ⟨by decide +kernel, Or.inl (by decide +kernel)⟩
    ⟨by decide +kernel, Or.inl (by decide +kernel)⟩

end OsProjects.Mfs
