import OsProjects.Mfs.Capacity

/-!
# An append in two calls

`mfs_write` puts one byte behind the other, and a later call goes on where the earlier one
stopped: it does not look at the time of modification, the one thing that the split leaves
in the image. So two appends leave what one leaves (`mfsWrite_split`).
-/

namespace OsProjects.Mfs

open Bytes Prog Prefix

/-- A return value as a number of bytes: a full disk counts as none. -/
def accepted (rc : Int) : Int := if rc = -enospc then 0 else rc

section Touch

variable {N n b : Nat} {E : Disk} {l : List UInt8} {t t' : UInt64}

theorem touch_touch (hn : 1 ≤ n) : touch n t (touch n t' E) = touch n t E := by
  rw [touch, inodeAt_touch hn, touch, writeRecord_writeRecord, touch]

theorem lastBlock_touch (hn : 1 ≤ n) (hn' : n ≤ 256) (hib : 6 ≤ indexAt E n) :
    lastBlock n (touch n t E) = lastBlock n E := by
  rw [lastBlock, indexAt_touch hn, sizeAt_touch hn,
    idxAt_congr (touch_of_ne hn' (by omega) (by omega))]
  rfl

variable (h : Growing N n E)
include h

/-- The bytes that go into the last block do not meet the time. -/
theorem fillBlock_touch (hoff : sizeAt E n % 16384 ≠ 0) :
    fillBlock n (touch n t E) l = touch n t (fillBlock n E l) := by
  have hnum := h.number
  have hib := h.index_range
  have hlast := h.lastBlock_used hoff
  rw [fillBlock, lastBlock_touch (by omega) hnum.2 hib.1, sizeAt_touch (by omega),
    touch_of_ne hnum.2 (by omega) (by omega), inodeAt_touch (by omega), touch,
    ← writeRecord_update hnum.2 (by omega), writeRecord_writeRecord, touch, inodeAt_fillBlock h,
    fillBlock, writeRecord_writeRecord]
  rfl

/-- Nor do the bytes that start a block. -/
theorem startBlock_touch (hb : 6 ≤ b) :
    startBlock n (touch n t E) b l = touch n t (startBlock n E b l) := by
  have hnum := h.number
  have hib := h.index_range
  rw [startBlock, indexAt_touch (by omega), sizeAt_touch (by omega),
    touch_of_ne hnum.2 (by decide) (by decide), touch_of_ne hnum.2 (by omega) (by omega),
    inodeAt_touch (by omega), touch, ← writeRecord_update hnum.2 (by decide),
    ← writeRecord_update hnum.2 (by omega), ← writeRecord_update hnum.2 (by omega),
    writeRecord_writeRecord, touch, inodeAt_startBlock h, startBlock, writeRecord_writeRecord]
  rfl

/-- **The machine that puts bytes does not see the time of modification.** -/
theorem putByte_touch (c : UInt8) :
    putByte N n (touch n t E) c = (putByte N n E c).map (touch n t) := by
  have hnum := h.number
  by_cases hoff : sizeAt E n % 16384 = 0
  · rw [putByte, putByte, sizeAt_touch (by omega), if_neg (not_not_intro hoff),
      if_neg (not_not_intro hoff), firstClear_congr (touch_of_ne hnum.2 (by decide) (by decide))]
    cases hb : firstClear N E with
    | none => rfl
    | some b => exact congrArg some (startBlock_touch h (firstClear_some hb).1)
  · have hoff' : sizeAt (touch n t E) n % 16384 ≠ 0 := by rwa [sizeAt_touch (by omega)]
    rw [putByte_fill hoff', putByte_fill hoff]
    exact congrArg some (fillBlock_touch h hoff)

theorem consume_touch : consume (putByte N n) (touch n t E) l =
    ((consume (putByte N n) E l).1, touch n t (consume (putByte N n) E l).2) := by
  have hmap : ∀ E c, Growing N n E → putByte N n (touch n t E) c =
      (putByte N n E c).map (touch n t) := fun _ c hE => putByte_touch hE c
  exact consume_map growing_of_putByte hmap h l

end Touch

section Handler

variable {N n : Nat} {d E : Disk} {a b : List UInt8}

theorem growing_indexed (h : FsInv N d) (hN4 : N ≤ 4096) (hn : IsFile d n)
    (hE : indexed N n d = some E) : Growing N n E ∧ sizeAt E n = sizeAt d n := by
  unfold indexed at hE
  by_cases hib : indexAt d n = 0
  · rw [if_neg (not_not_intro hib), Option.map_eq_some_iff] at hE
    obtain ⟨b, hb, rfl⟩ := hE
    have hfresh := firstClear_some hb
    have hgive := h.running_giveIndex hN4 hn hib ⟨hfresh.1, hfresh.2.1⟩
    exact ⟨hgive.growing, hgive.size⟩
  · rw [if_pos hib] at hE
    obtain rfl := Option.some.inj hE
    exact ⟨h.growing hN4 hn hib, rfl⟩

/-- A write that puts its whole buffer. -/
theorem growFile_whole {now : UInt64} {d₁ : Disk} (ha : a ≠ [])
    (hrun : growFile N n d a now = ((a.length : Int), d₁)) :
    ∃ E, indexed N n d = some E ∧ (consume (putByte N n) E a).1 = a.length ∧
      d₁ = touch n now (consume (putByte N n) E a).2 := by
  have hpos := List.length_pos_iff.mpr ha
  -- an error is not a length
  have hno : ∀ d₂ : Disk, (-enospc, d₂) ≠ ((a.length : Int), d₁) := fun d₂ heq => by
    have hrc := congrArg Prod.fst heq
    simp only [enospc] at hrc
    omega
  unfold growFile at hrun
  cases hE : indexed N n d with
  | none =>
    rw [hE] at hrun
    exact absurd hrun (hno d)
  | some E =>
    rw [hE] at hrun
    simp only at hrun
    by_cases hzero : (consume (putByte N n) E a).1 = 0
    · rw [if_neg (show ¬ (consume (putByte N n) E a).1 > 0 by omega)] at hrun
      split_ifs at hrun
      · exact absurd hrun (hno _)
      · exact absurd hrun (hno _)
    · rw [if_neg fun hboth => hzero hboth.1, if_pos (by omega)] at hrun
      have hrc := congrArg Prod.fst hrun
      exact ⟨E, rfl, Int.ofNat_inj.mp hrc, (congrArg Prod.snd hrun).symm⟩

/-- The same write with more bytes behind. -/
theorem growFile_append {now : UInt64} (ha : a ≠ []) (hE : indexed N n d = some E)
    (hwhole : (consume (putByte N n) E a).1 = a.length) (b : List UInt8) :
    growFile N n d (a ++ b) now =
      (((a.length + (consume (putByte N n) (consume (putByte N n) E a).2 b).1 : Nat) : Int),
        touch n now (consume (putByte N n) (consume (putByte N n) E a).2 b).2) := by
  have hpos := List.length_pos_iff.mpr ha
  unfold growFile
  rw [hE]
  simp only [consume_append hwhole]
  rw [if_neg (by omega), if_pos (by omega)]

end Handler

/-! ## Two calls and one -/

section Split

variable {N : UInt32} {d d₁ d₂ d' : Disk} {path : CString} {text : List UInt8} {s n : Nat}
  {a b : List UInt8} {rc₂ rc : Int} {now₁ now₂ now : UInt64}

/-- **Append chunking is invisible.** Where the first of two appends puts its whole buffer,
the two leave what one append of both buffers leaves, but for the time of modification, and
return as many bytes. -/
theorem mfsWrite_split (h : Reachable N d) (hpath : FilePath path text) (hn : Named d text s n)
    (ha : a ≠ [])
    (hfirst : run (mfsWrite (formatSuperblock N) path a (sizeAt d n) now₁) d =
      ((a.length : Int), d₁))
    (hsecond : run (mfsWrite (formatSuperblock N) path b (sizeAt d n + a.length) now₂) d₁ =
      (rc₂, d₂))
    (hone : run (mfsWrite (formatSuperblock N) path (a ++ b) (sizeAt d n) now) d = (rc, d')) :
    (∃ t, d₂ = touch n t d') ∧ a.length + accepted rc₂ = rc := by
  obtain ⟨hinv, -, hN4⟩ := h.inv
  have hfile := hn.toFileAt.isFile
  have hnum := hinv.dir.file_range hfile
  have hvalid := hinv.dir.valid_named hn
  obtain ⟨name, hname, rfl⟩ := hpath.name
  -- the image behind the first call is consistent and still holds the file
  obtain ⟨m, w', hreply, hguar, hdisk, happ⟩ := run_mfsWrite_world a (sizeAt d n) now₁ hinv hN4
    hname hvalid.ne_dot hvalid.ne_dotdot hn
  rw [hfirst] at hdisk
  change w'.disk = d₁ at hdisk
  have hinv₁ : FsInv N.toNat d₁ := hdisk ▸ hinv.of_appended hguar happ
  have hn₁ : Named d₁ name.val s n := (named_congr (hdisk ▸ hguar.dir.rootDir)).mpr hn
  -- both calls put bytes on the image with the index block
  rw [run_mfsWrite_file hinv hN4 hpath hn ha now₁] at hfirst
  obtain ⟨E, hE, hwhole, rfl⟩ := growFile_whole ha hfirst
  obtain ⟨hgrow, hsize⟩ := growing_indexed hinv hN4 hfile hE
  have hgrown := grown_consume hgrow a
  have hsize₁ : sizeAt (touch n now₁ (consume (putByte N.toNat n) E a).2) n =
      sizeAt d n + a.length := by
    rw [sizeAt_touch (by omega), hgrown.size, hsize, hwhole]
  have hab : a ++ b ≠ [] := List.append_ne_nil_of_left_ne_nil ha b
  rw [run_mfsWrite_file hinv hN4 hpath hn hab now, growFile_append ha hE hwhole b] at hone
  obtain ⟨rfl, rfl⟩ := Prod.mk.inj hone
  by_cases hb : b = []
  · -- nothing is left to write
    subst hb
    have hnop : run (mfsWrite (formatSuperblock N) path [] (sizeAt d n + a.length) now₂)
        (touch n now₁ (consume (putByte N.toNat n) E a).2) =
          (0, touch n now₁ (consume (putByte N.toNat n) E a).2) := rfl
    rw [hnop] at hsecond
    obtain ⟨rfl, rfl⟩ := Prod.mk.inj hsecond
    refine ⟨⟨now₁, ?_⟩, rfl⟩
    rw [consume_nil, touch_touch (by omega)]
  · have hcast : (sizeAt d n : Int) + a.length =
        (sizeAt (touch n now₁ (consume (putByte N.toNat n) E a).2) n : Nat) := by
      rw [hsize₁]
      rfl
    have hib : indexAt (touch n now₁ (consume (putByte N.toNat n) E a).2) n ≠ 0 := by
      rw [indexAt_touch (by omega)]
      exact hgrown.growing.shape.index_ne
    rw [hcast, run_mfsWrite_file hinv₁ hN4 hpath hn₁ hb now₂, growFile, indexed, if_pos hib]
      at hsecond
    simp only [consume_touch hgrown.growing] at hsecond
    have hstay := @consume_zero _ _ (putByte N.toNat n) (consume (putByte N.toNat n) E a).2 b
    generalize consume (putByte N.toNat n) (consume (putByte N.toNat n) E a).2 b = r
      at hsecond hstay ⊢
    by_cases hzero : r.1 = 0
    · -- the disk is full behind the first call
      rw [if_pos ⟨hzero, hib⟩] at hsecond
      obtain ⟨rfl, rfl⟩ := Prod.mk.inj hsecond
      refine ⟨⟨now₁, ?_⟩, ?_⟩
      · rw [hstay hzero, touch_touch (by omega)]
      · rw [accepted, if_pos rfl, hzero]
        rfl
    · rw [if_neg fun hboth => hzero hboth.1, if_pos (by omega)] at hsecond
      obtain ⟨rfl, rfl⟩ := Prod.mk.inj hsecond
      refine ⟨⟨now₂, ?_⟩, ?_⟩
      · rw [touch_touch (by omega), touch_touch (by omega)]
      · rw [accepted, if_neg (by simp only [enospc]; omega)]
        omega

/-- Two bytes of `/a`, one by one. -/
theorem mfsWrite_split_a : ∃ t,
    (run (mfsWrite (formatSuperblock 128) pathA [121] (sizeAt twoFiles 2 + 1) 1)
      (run (mfsWrite (formatSuperblock 128) pathA [120] (sizeAt twoFiles 2) 0) twoFiles).2).2 =
    touch 2 t (run (mfsWrite (formatSuperblock 128) pathA [120, 121] (sizeAt twoFiles 2) 0)
      twoFiles).2 := by
  have hrc : (run (mfsWrite (formatSuperblock 128) pathA [120] (sizeAt twoFiles 2) 0)
      twoFiles).1 = 1 := by decide +kernel
  have hfirst : run (mfsWrite (formatSuperblock 128) pathA [120] (sizeAt twoFiles 2) 0) twoFiles =
      (1, (run (mfsWrite (formatSuperblock 128) pathA [120] (sizeAt twoFiles 2) 0) twoFiles).2) :=
    Prod.ext hrc rfl
  exact (mfsWrite_split twoFiles_reachable ⟨rfl, by decide, by decide⟩ twoFiles_named.1 (by decide)
    hfirst Prod.mk.eta.symm Prod.mk.eta.symm).1

end Split

end OsProjects.Mfs
