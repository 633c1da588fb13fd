import OsProjects.Mfs.Exact

/-!
# How much mfs_write accepts

The bytes that find a place are counted by `room`; so `mfs_write` takes the longest prefix
of the buffer that fits, and its blocks are exactly those it needs (`Fits`,
`mfsWrite_fits`). That the index has 4096 entries never matters.
-/

namespace OsProjects.Mfs

open Bytes Prog Prefix

/-- The clear blocks that are left for data: an empty file needs one as its index block. -/
def dataBlocks (N n : Nat) (d : Disk) : Nat :=
  if indexAt d n = 0 then (clearBlocks N d).card - 1 else (clearBlocks N d).card

/-- The number of bytes file `n` has room for. -/
def space (N n : Nat) (d : Disk) : Nat := slack (sizeAt d n) + 16384 * dataBlocks N n d

/-- Not a byte fits. -/
def Full (N n : Nat) (d : Disk) : Prop :=
  indexAt d n = 0 ∧ clearBlocks N d = ∅ ∨ space N n d = 0

/-- The number of data blocks `r` more bytes need. -/
def newBlocks (n : Nat) (d : Disk) (r : Nat) : Nat := (r - slack (sizeAt d n) + 16383) / 16384

/-- A write of `len` bytes at the end of file `n` returns `rc` and leaves `d'`: as many
bytes as fit are taken, and as many blocks as they need. -/
structure Fits (N n : Nat) (d : Disk) (len : Nat) (rc : Int) (d' : Disk) : Prop where
  full : Full N n d → rc = -enospc
  count : ¬ Full N n d → rc = min len (space N n d)
  clear : clearBlocks N d' ⊆ clearBlocks N d
  taken : ¬ Full N n d → (clearBlocks N d').card + newBlocks n d (min len (space N n d)) +
    (if indexAt d n = 0 then 1 else 0) = (clearBlocks N d).card
  data : ¬ Full N n d → countAt d' n = countAt d n + newBlocks n d (min len (space N n d))
  index : ¬ Full N n d → indexAt d' n ≠ 0 ∧ (indexAt d n ≠ 0 → indexAt d' n = indexAt d n)
  small : rc ≠ -efbig

section PutByte

variable {N n : Nat} {E E' : Disk} {c : UInt8}

theorem indexAt_putByte (h : Growing N n E) (hput : putByte N n E c = some E') :
    indexAt E' n = indexAt E n := by
  rcases putByte_cases hput with ⟨hoff, rfl⟩ | ⟨hoff, b, hb, rfl⟩
  · exact indexAt_fillBlock h
  · exact indexAt_startBlock h

theorem clearBlocks_putByte (h : Growing N n E) (hput : putByte N n E c = some E') :
    clearBlocks N E' ⊆ clearBlocks N E := by
  intro b hb
  obtain ⟨hrange, hclear⟩ := mem_clearBlocks.mp hb
  refine mem_clearBlocks.mpr ⟨hrange, ?_⟩
  rcases putByte_cases hput with ⟨hoff, rfl⟩ | ⟨hoff, b', hb', rfl⟩
  · rwa [bitAt_congr (bitmap_fillBlock h hoff)] at hclear
  · rw [bitAt_startBlock h (firstClear_some hb')] at hclear
    split_ifs at hclear
    exact hclear

/-- What a run of bytes leaves. -/
structure Grown (N n : Nat) (E : Disk) (k : Nat) (E' : Disk) : Prop where
  growing : Growing N n E'
  size : sizeAt E' n = sizeAt E n + k
  index : indexAt E' n = indexAt E n
  blocks : countAt E' n + (clearBlocks N E').card = countAt E n + (clearBlocks N E).card
  clear : clearBlocks N E' ⊆ clearBlocks N E

theorem grown_consume (h : Growing N n E) (l : List UInt8) :
    Grown N n E (consume (putByte N n) E l).1 (consume (putByte N n) E l).2 := by
  refine ⟨consume_inv growing_of_putByte h l, ?_, ?_, ?_, ?_⟩
  · exact consume_measure growing_of_putByte (fun _ _ _ hE hput => sizeAt_putByte hE hput) h l
  · exact consume_const growing_of_putByte (fun _ _ _ hE hput => indexAt_putByte hE hput) h l
  · exact consume_const (f := fun E => countAt E n + (clearBlocks N E).card) growing_of_putByte
      (fun _ _ _ hE hput => countAt_putByte hE hput) h l
  · -- that no clear block comes in is an invariant of its own, from `E` on
    refine (consume_inv (I := fun E' => Growing N n E' ∧ clearBlocks N E' ⊆ clearBlocks N E)
      (fun _ _ _ hE hput => ⟨Growing.putByte hE.1 hput, ?_⟩) ⟨h, subset_rfl⟩ l).2
    exact (clearBlocks_putByte hE.1 hput).trans hE.2

/-- The number of blocks that come in is the one the bytes need. -/
theorem Grown.newBlocks {k : Nat} (h : Growing N n E) (h' : Grown N n E k E') :
    countAt E' n = countAt E n + newBlocks n E k := by
  -- in both images the blocks are as many as the size needs
  have hold := h.shape.count_eq
  have hnew := h'.growing.shape.count_eq
  have hsize := h'.size
  unfold Mfs.newBlocks slack
  omega

end PutByte

section Readings

variable {N n b : Nat} {d E : Disk} {t : UInt64}

theorem touch_of_ne (hn : n ≤ 256) {k : Nat} (h3 : k ≠ 3) (h4 : k ≠ 4) : touch n t E k = E k :=
  writeRecord_of_ne hn h3 h4

theorem clearBlocks_touch (hn : n ≤ 256) : clearBlocks N (touch n t E) = clearBlocks N E :=
  clearBlocks_congr (touch_of_ne hn (by decide) (by decide))

theorem sizeAt_touch (hn : 1 ≤ n) : sizeAt (touch n t E) n = sizeAt E n := by
  rw [sizeAt, inodeAt_touch hn]
  rfl

theorem indexAt_touch (hn : 1 ≤ n) : indexAt (touch n t E) n = indexAt E n := by
  rw [indexAt, inodeAt_touch hn]
  rfl

theorem countAt_touch (hn : 1 ≤ n) : countAt (touch n t E) n = countAt E n := by
  rw [countAt, inodeAt_touch hn]
  rfl

/-- The block given as index block is taken from the clear ones. -/
theorem clearBlocks_giveIndex (hn : n ≤ 256) (hb : 6 ≤ b ∧ b < N ∧ bitAt d b = false) :
    clearBlocks N (giveIndex n d b) ⊆ clearBlocks N d ∧
      (clearBlocks N (giveIndex n d b)).card + 1 = (clearBlocks N d).card := by
  have hbit : ∀ k, bitAt (giveIndex n d b) k = if b = k then true else bitAt d k := fun k => by
    rw [bitAt, giveIndex_bitmap hn hb.1, mfsGetBit, mfsSetBit, getBit_setBit]
    rfl
  refine ⟨?_, card_clearBlocks hb hbit⟩
  intro k hk
  obtain ⟨hrange, hclear⟩ := mem_clearBlocks.mp hk
  rw [hbit] at hclear
  split_ifs at hclear
  exact mem_clearBlocks.mpr ⟨hrange, hclear⟩

end Readings

section Fits

variable {N n : Nat} {d : Disk} {buf : List UInt8} {now : UInt64}

/-- Without room nothing is promised but the return value. -/
theorem Full.fits (h : Full N n d) (len : Nat) {d' : Disk}
    (hclear : clearBlocks N d' ⊆ clearBlocks N d) : Fits N n d len (-enospc) d' :=
  ⟨fun _ => rfl, fun hno => absurd h hno, hclear, fun hno => absurd h hno,
    fun hno => absurd h hno, fun hno => absurd h hno, by decide⟩

/-- The bytes are put on the image `E`, which is `d` with an index block for the file. -/
theorem fits_consume {E : Disk} (hE : Growing N n E) (hsize : sizeAt E n = sizeAt d n)
    (hcount : countAt E n = countAt d n) (hsub : clearBlocks N E ⊆ clearBlocks N d)
    (hcard : (clearBlocks N E).card + (if indexAt d n = 0 then 1 else 0) = (clearBlocks N d).card)
    (hindex : indexAt d n ≠ 0 → indexAt E n = indexAt d n) (hbuf : buf ≠ []) (now : UInt64) :
    Fits N n d buf.length
      (if (consume (putByte N n) E buf).1 > 0 then ((consume (putByte N n) E buf).1 : Int)
        else -enospc) (touch n now (consume (putByte N n) E buf).2) := by
  have hnum := hE.number
  have hpos := List.length_pos_iff.mpr hbuf
  have hroom := consume_room hE buf
  have hgrown := grown_consume hE buf
  have hnew := hgrown.newBlocks hE
  have hne := hgrown.growing.shape.index_ne
  -- room and slack of the image are those of the disk before the call
  have hspace : room N n E = space N n d := by
    unfold room space dataBlocks
    rw [hsize]
    split_ifs at hcard ⊢
    · rw [← hcard, Nat.add_sub_cancel]
    · rw [← hcard, Nat.add_zero]
  have hslack : newBlocks n E = newBlocks n d := by
    unfold newBlocks
    rw [hsize]
  have hsub' := hgrown.clear.trans hsub
  have hblocks := hgrown.blocks
  have hidx := hgrown.index
  rw [hspace] at hroom
  rw [hslack, hcount] at hnew
  rw [← clearBlocks_touch (t := now) hnum.2] at hsub'
  by_cases hfull : Full N n d
  · -- some block is clear, so it is the space that is missing
    have hzero : space N n d = 0 := by
      refine hfull.resolve_left ?_
      intro hboth
      rw [if_pos hboth.1, Finset.card_eq_zero.mpr hboth.2] at hcard
      omega
    rw [hzero, Nat.min_zero] at hroom
    rw [if_neg (by omega)]
    exact hfull.fits _ hsub'
  · -- a byte at least finds a place
    have hsome : space N n d ≠ 0 := fun hz => hfull (Or.inr hz)
    rw [if_pos (by omega), hroom]
    rw [hroom] at hnew
    refine ⟨fun h => absurd h hfull, fun _ => rfl, hsub', fun _ => ?_, fun _ => ?_, fun _ => ?_,
      by simp only [efbig]; omega⟩
    · rw [clearBlocks_touch hnum.2]
      omega
    · rw [countAt_touch (by omega), hnew]
    · rw [indexAt_touch (by omega)]
      exact ⟨hne, fun hib => hidx.trans (hindex hib)⟩

/-- **`growFile` accepts what fits.** -/
theorem growFile_fits (h : FsInv N d) (hN4 : N ≤ 4096) (hn : IsFile d n) (hbuf : buf ≠ [])
    (now : UInt64) :
    Fits N n d buf.length (growFile N n d buf now).1 (growFile N n d buf now).2 := by
  have hrange := h.dir.file_range hn
  unfold growFile indexed
  by_cases hib : indexAt d n = 0
  · have hempty := (h.file n hn).unindexed hib
    rw [if_neg (not_not_intro hib)]
    cases hclear : firstClear N d with
    | none =>
      -- not even an index block is to be had
      have hnone := Finset.card_eq_zero.mp (firstClear_eq_none_iff.mp hclear)
      exact Full.fits (Or.inl ⟨hib, hnone⟩) _ subset_rfl
    | some b =>
      have hfresh := firstClear_some hclear
      have hgive := h.running_giveIndex hN4 hn hib ⟨hfresh.1, hfresh.2.1⟩
      obtain ⟨hsub, hcard⟩ := clearBlocks_giveIndex hrange.2 hfresh
      simp only [Option.map_some, hib, ne_eq, not_true_eq_false, and_false, if_false]
      refine fits_consume hgive.growing ?_ ?_ hsub ?_ (fun hne => absurd hib hne) hbuf now
      · exact hgive.size
      · rw [countAt, hgive.record]
        rfl
      · rw [if_pos hib]
        exact hcard
  · have hgrow := h.growing hN4 hn hib
    have hfits := fits_consume hgrow rfl rfl subset_rfl (by rw [if_neg hib]; rfl)
      (fun _ => rfl) hbuf now
    simp only [if_pos hib]
    by_cases hzero : (consume (putByte N n) d buf).1 = 0
    · rw [if_pos ⟨hzero, hib⟩]
      have hpos := List.length_pos_iff.mpr hbuf
      have hroom := consume_room hgrow buf
      have hspace : space N n d = room N n d := by
        rw [space, dataBlocks, if_neg hib, room]
      exact Full.fits (Or.inr (by omega)) _ subset_rfl
    · rw [if_neg fun hboth => hzero hboth.1]
      exact hfits

end Fits

section Handler

variable {N : UInt32} {d : Disk} {path : CString} {text : List UInt8} {s n : Nat}
  {buf : List UInt8}

/-- A write to the end of the file a path leads to. -/
theorem run_mfsWrite_file (h : FsInv N.toNat d) (hN4 : N.toNat ≤ 4096) (hpath : FilePath path text)
    (hn : Named d text s n) (hbuf : buf ≠ []) (now : UInt64) :
    run (mfsWrite (formatSuperblock N) path buf (sizeAt d n) now) d =
      growFile N.toNat n d buf now := by
  have hvalid := h.dir.valid_named hn
  obtain ⟨name, hname, rfl⟩ := hpath.name
  exact run_mfsWrite_grow h hname hvalid.ne_dot hvalid.ne_dotdot hn hbuf now hN4

/-- **`mfs_write` accepts the longest prefix that fits**, on every image between two calls,
for every file and every buffer that is not empty. -/
theorem mfsWrite_fits (h : Reachable N d) (hpath : FilePath path text) (hn : Named d text s n)
    (hbuf : buf ≠ []) (now : UInt64) :
    Fits N.toNat n d buf.length
      (run (mfsWrite (formatSuperblock N) path buf (sizeAt d n) now) d).1
      (run (mfsWrite (formatSuperblock N) path buf (sizeAt d n) now) d).2 := by
  obtain ⟨hinv, -, hN4⟩ := h.inv
  rw [run_mfsWrite_file hinv hN4 hpath hn hbuf now]
  exact growFile_fits hinv hN4 hn.toFileAt.isFile hbuf now

/-- A second write to `/a`. -/
theorem mfsWrite_fits_a : Fits 128 2 oneFile 1
    (run (mfsWrite (formatSuperblock 128) pathA [121] (sizeAt oneFile 2) 0) oneFile).1
    (run (mfsWrite (formatSuperblock 128) pathA [121] (sizeAt oneFile 2) 0) oneFile).2 :=
  @mfsWrite_fits 128 oneFile pathA [97] 2 2 [121] oneFile_reachable ⟨rfl, by decide, by decide⟩
    oneFile_named (by decide) 0

end Handler

end OsProjects.Mfs
