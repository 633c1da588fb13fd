import OsProjects.Mfs.Capacity

/-!
# Acknowledged bytes

`mfs_write` returns the number of bytes it has copied to data blocks. They are in the file
only when the three transfers of its commit succeed as well, and the return value does not
look at these. Which transfers of a call these are follows from what failed before
(`commitAt`); `mfsWrite_acknowledged_iff` says that nothing else can go wrong.
-/

namespace OsProjects.Mfs

open Bytes Prog Prefix

/-! ## The bytes of a file that grows -/

section Content

variable {N n b : Nat} {E : Disk} {l : List UInt8}

theorem content_holds (d : Disk) (n : Nat) (l : List UInt8) :
    Holds d (idxAt d (indexAt d n)) (sizeAt d n) fun i => (content d n ++ l).getD i 0 := by
  intro i hi
  have hlen : i < (content d n).length := by rwa [content_length]
  show _ = (content d n ++ l).getD i 0
  rw [List.getD_append _ _ _ _ hlen, List.getD_eq_getElem _ _ hlen]
  exact (content_eq_iff.mp rfl).2 i hlen

theorem content_of_holds {d : Disk} {bytes : List UInt8} (hlen : bytes.length = sizeAt d n)
    (h : Holds d (idxAt d (indexAt d n)) (sizeAt d n) fun i => bytes.getD i 0) :
    content d n = bytes := by
  refine content_eq_iff.mpr ⟨hlen, fun i hi => ?_⟩
  rw [← List.getD_eq_getElem _ 0 hi]
  exact h i (by omega)

/-- The bytes of the list are those behind the file. -/
theorem chunkOf_behind (d : Disk) (n : Nat) (l : List UInt8) (j : Nat) :
    chunkOf l j = (content d n ++ l).getD (sizeAt d n + j) 0 := by
  rw [List.getD_append_right _ _ _ _ (by rw [content_length]; omega), content_length,
    Nat.add_sub_cancel_left]
  rfl

variable (h : Growing N n E)
include h

/-- Size, index block and the blocks behind the metadata decide the bytes of a file. -/
theorem Growing.content_congr {E' : Disk} (hsize : sizeAt E' n = sizeAt E n)
    (hindex : indexAt E' n = indexAt E n) (hdata : ∀ k, 6 ≤ k → E' k = E k) :
    content E' n = content E n := by
  have hib := h.index_range
  unfold content
  rw [hsize, hindex]
  apply List.map_congr_left
  intro i hi
  -- byte `i` lies in a data block of the file
  have hk := h.shape.lt_count (List.mem_range.mp hi)
  have hused := h.used _ (Or.inr ⟨_, hk, rfl⟩)
  rw [idxAt_congr (hdata _ hib.1), hdata _ hused.1]

theorem content_fillBlock (hoff : sizeAt E n % 16384 ≠ 0)
    (hle : sizeAt E n % 16384 + l.length ≤ 16384) :
    content (fillBlock n E l) n = content E n ++ l := by
  have hgrow := h.fill hoff hle
  have hsize := sizeAt_fillBlock (l := l) h (by omega)
  have hidx := idxAt_fillBlock (l := l) h hoff
  have hold := (content_holds E n l).grow h.shape hoff hle fun j _ => chunkOf_behind E n l j
  refine content_of_holds (by rw [List.length_append, content_length, hsize]) ?_
  rw [indexAt_fillBlock h, hidx, hsize]
  intro i hi
  -- a data block of the file, outside the table
  have hk := hgrow.shape.lt_count (i := i) (by omega)
  have hused := hgrow.used _ (Or.inr ⟨_, hk, rfl⟩)
  rw [indexAt_fillBlock h, hidx] at hused
  rw [fillBlock, writeRecord_of_ne h.number.2 (by omega) (by omega)]
  exact hold i hi

theorem content_startBlock (hb : 6 ≤ b ∧ b < N ∧ bitAt E b = false)
    (hoff : sizeAt E n % 16384 = 0) (hpos : 0 < l.length) (hle : l.length ≤ 16384) :
    content (startBlock n E b l) n = content E n ++ l := by
  have hgrow := h.start hb hoff hpos hle
  have hsize := sizeAt_startBlock (b := b) (l := l) h hle
  have hcount := h.shape.count_eq
  have hk : sizeAt E n / 16384 = countAt E n := by omega
  have hidx := idxAt_startBlock (l := l) h hb
  rw [hk] at hidx
  have hold := (content_holds E n l).push h.shape hoff hle hidx (h.not_used hb)
    fun j _ => chunkOf_behind E n l j
  -- outside the metadata and the index block
  have hdata : ∀ k, 6 ≤ k → k ≠ indexAt E n → startBlock n E b l k =
      Function.update E b (blit zero 0 l.length (chunkOf l)) k := by
    intro k hk6 hki
    by_cases hkb : k = b
    · rw [hkb, startBlock_fresh h hb, Function.update_self]
    · rw [startBlock_of_ne h ⟨by omega, by omega, by omega, hkb, hki⟩, Function.update_of_ne hkb]
  refine content_of_holds (by rw [List.length_append, content_length, hsize]) ?_
  rw [indexAt_startBlock h, hsize]
  intro i hi
  have hlt := hgrow.shape.lt_count (i := i) (by omega)
  have hused := hgrow.used _ (Or.inr ⟨_, hlt, rfl⟩)
  have hne := hgrow.shape.off_index _ hlt
  rw [indexAt_startBlock h] at hused hne
  rw [hdata _ (by omega) hne]
  exact hold i hi

end Content

/-! ## The loop with failing transfers -/

/-- The transfer in front of which the loop ends, from transfer `i` on, when it needs `w` blocks
and `f` are clear. -/
def passesEnd (o : Nat → Bool) : (w f i : Nat) → Nat
  | 0, _, i => i
  | _ + 1, 0, i => i + 1
  | w + 1, f + 1, i =>
    if o i && o (i + 1) && o (i + 2) then passesEnd o w f (i + 3) else brokenPass o i

/-- The first pass of the loop succeeds: it patches the last block of a file of `z` bytes, or
starts a block. -/
def FirstPass (o : Nat → Bool) (z f i : Nat) : Prop :=
  if slack z ≠ 0 then o i = true ∧ o (i + 1) = true
  else 0 < f ∧ o i = true ∧ o (i + 1) = true ∧ o (i + 2) = true

/-- The transfer in front of which the loop ends when its first pass succeeds. -/
def loopEnd (o : Nat → Bool) (z len f i : Nat) : Nat :=
  passesEnd o ((len - slack z + 16383) / 16384) f (if slack z ≠ 0 then i + 2 else i)

/-- The loop has copied some bytes of the buffer. -/
structure Copied (N n : Nat) (buf : List UInt8) (s : WriteState) (D E : Disk) (s' : WriteState)
    (D' E' : Disk) : Prop extends Advanced N n s D s' D' E' where
  le : s.bytesWritten ≤ s'.bytesWritten
  le_length : s'.bytesWritten ≤ buf.length
  content : content E' n = content E n ++
    (buf.drop s.bytesWritten).take (s'.bytesWritten - s.bytesWritten)

section Loop

variable {N n t : Nat} {s s' s'' : WriteState} {D D' D'' E E' E'' : Disk} {buf : List UInt8}
  {superblock : MfsSuperblock} {o : Nat → Bool} {i : Nat} {offset : Int}

theorem Copied.refl (h : Running N n s D E) (hle : s.bytesWritten ≤ buf.length) :
    Copied N n buf s D E s D E :=
  ⟨.refl h, Nat.le_refl _, hle, by rw [Nat.sub_self, List.take_zero, List.append_nil]⟩

theorem Copied.trans (h : Copied N n buf s D E s' D' E')
    (h' : Copied N n buf s' D' E' s'' D'' E'') :
    Copied N n buf s D E s'' D'' E'' := by
  have hle := h.le
  have hle' := h'.le
  refine ⟨h.toAdvanced.trans h'.toAdvanced, by omega, h'.le_length, ?_⟩
  have hsplit : s''.bytesWritten - s.bytesWritten =
      (s'.bytesWritten - s.bytesWritten) + (s''.bytesWritten - s'.bytesWritten) := by omega
  have hdrop : s.bytesWritten + (s'.bytesWritten - s.bytesWritten) = s'.bytesWritten := by omega
  rw [h'.content, h.content, hsplit, List.take_add, List.drop_drop, hdrop, List.append_assoc]

/-- A pass that stops. -/
theorem Copied.stop (h : Advanced N n s D s' D' E') (hbytes : s'.bytesWritten = s.bytesWritten)
    (hle : s.bytesWritten ≤ buf.length) (hcontent : Mfs.content E' n = Mfs.content E n) :
    Copied N n buf s D E s' D' E' := by
  refine ⟨h, Nat.le_of_eq hbytes.symm, by omega, ?_⟩
  rw [hbytes, Nat.sub_self, List.take_zero, List.append_nil, hcontent]

/-- A pass that copies its bytes. -/
theorem Copied.pass (h : Advanced N n s D s' D' E')
    (hbytes : s'.bytesWritten = s.bytesWritten + t) (hle : s.bytesWritten + t ≤ buf.length)
    (hcontent : Mfs.content E' n = Mfs.content E n ++ chunkList buf s t) :
    Copied N n buf s D E s' D' E' := by
  refine ⟨h, by omega, by omega, ?_⟩
  rw [hbytes, Nat.add_sub_cancel_left, hcontent]
  rfl

/-- What lies outside the bitmap decides the bytes of a file. -/
theorem Running.content_bitmap (h : Running N n s D E) (hkeep : ∀ k, k ≠ 1 → E' k = E k) :
    content E' n = content E n := by
  have hrec : inodeAt E' n = inodeAt E n :=
    inodeAt_congr h.growing.number.2 (hkeep 3 (by decide)) (hkeep 4 (by decide))
  exact h.growing.content_congr (by rw [sizeAt, sizeAt, hrec]) (indexAt_congr hrec)
    fun k hk => hkeep k (by omega)

/-- **The passes that start a block**, until one of them fails. -/
theorem Running.runWith_passes (h : Running N n s D E) (hoffset : offset = s.inode.size.toNat)
    (hle : s.bytesWritten ≤ buf.length) (hN : superblock.blockCount.toNat = N)
    (hoff : sizeAt E n % 16384 = 0 ∨ s.bytesWritten = buf.length) (fuel : Nat)
    (hfuel : buf.length ≤ s.bytesWritten + fuel) :
    ∃ s' D' E', runWith o i (writeLoop superblock buf offset fuel s) D =
        ⟨s', passesEnd o ((buf.length - s.bytesWritten + 16383) / 16384) (clearBlocks N E).card i,
          D'⟩ ∧
      Copied N n buf s D E s' D' E' ∧
      (s.bytesWritten < s'.bytesWritten ↔ s.bytesWritten < buf.length ∧
        0 < (clearBlocks N E).card ∧ o i = true ∧ o (i + 1) = true ∧ o (i + 2) = true) := by
  induction fuel generalizing s D E i with
  | zero =>
    have hzero : (buf.length - s.bytesWritten + 16383) / 16384 = 0 := by omega
    rw [hzero]
    exact ⟨s, D, E, rfl, .refl h hle, by omega⟩
  | succ fuel ih =>
    rw [writeLoop]
    by_cases hlt : s.bytesWritten < buf.length
    · have hoff' : sizeAt E n % 16384 = 0 := hoff.resolve_right (by omega)
      rw [if_pos hlt, runWith_bind]
      generalize ht : min (16384 - sizeAt E n % 16384) (buf.length - s.bytesWritten) = t
      have hlen : (chunkList buf s t).length = t := length_chunkList (by omega)
      obtain ⟨w, hw⟩ : ∃ w, (buf.length - s.bytesWritten + 16383) / 16384 = w + 1 :=
        ⟨(buf.length - s.bytesWritten - 1) / 16384, by omega⟩
      rw [hw]
      cases hclear : firstClear N E with
      | none =>
        have hcard := firstClear_eq_none_iff.mp hclear
        rw [h.runWith_full hoffset hlt ht.symm hN hoff' hclear, hcard]
        refine ⟨_, D, E, rfl, .stop (.stop h ?_) rfl hle rfl, ?_⟩
        · split_ifs <;> decide
        · exact iff_of_false (Nat.lt_irrefl _) fun hboth => Nat.lt_irrefl 0 hboth.2.1
      | some b =>
        have hfresh := firstClear_some hclear
        have hcard := card_startBlock (l := chunkList buf s t) h.growing hclear
        rw [← hcard, passesEnd]
        by_cases hall : o i = true ∧ o (i + 1) = true ∧ o (i + 2) = true
        · obtain ⟨s', D', hrun, hbytes, -, hnext⟩ :=
            (h.runWith_new hoffset hlt ht.symm hN hoff' hclear).1 hall
          have hpass : Copied N n buf s D E s' D' (startBlock n E b (chunkList buf s t)) :=
            .pass hnext hbytes (by omega)
              (content_startBlock h.growing hfresh hoff' (by omega) (by omega))
          have hsize := sizeAt_startBlock (b := b) (l := chunkList buf s t) h.growing (by omega)
          have hoffset' : offset = s'.inode.size.toNat := by
            rw [hnext.inode]
            exact hoffset
          -- one block less is needed, and one less is clear
          obtain ⟨s'', D'', E'', hloop, hcopied, -⟩ := @ih s' D' _ (i + 3) hnext.running hoffset'
            hpass.le_length (by omega) (by omega)
          have hrest : (buf.length - s'.bytesWritten + 16383) / 16384 = w := by omega
          rw [hrest] at hloop
          rw [hrun, if_pos (by simp [hall.1, hall.2.1, hall.2.2])]
          refine ⟨s'', D'', E'', hloop, hpass.trans hcopied, ?_⟩
          have hmore := hcopied.le
          exact iff_of_true (by omega) ⟨hlt, Nat.succ_pos _, hall⟩
        · obtain ⟨D', E', hrun, hnext, hkeep⟩ :=
            (h.runWith_new hoffset hlt ht.symm hN hoff' hclear).2 hall
          have hno : ¬ (o i && o (i + 1) && o (i + 2)) = true := fun htrue => by
            rw [Bool.and_eq_true, Bool.and_eq_true, and_assoc] at htrue
            exact hall htrue
          rw [hrun, if_neg hno]
          refine ⟨_, D', E', rfl, .stop hnext rfl hle (h.content_bitmap hkeep), ?_⟩
          exact iff_of_false (Nat.lt_irrefl _) fun hboth => hall hboth.2.2
    · have hzero : (buf.length - s.bytesWritten + 16383) / 16384 = 0 := by omega
      rw [if_neg hlt, hzero]
      exact ⟨s, D, E, rfl, .refl h hle, by omega⟩

/-- **The loop copies bytes iff its first pass succeeds**, and then it ends where `loopEnd`
says. -/
theorem Running.runWith_loop (h : Running N n s D E) (hoffset : offset = s.inode.size.toNat)
    (hstart : s.bytesWritten = 0) (hbuf : buf ≠ []) (hN : superblock.blockCount.toNat = N) :
    ∃ s' i' D' E', runWith o i (writeLoop superblock buf offset buf.length s) D = ⟨s', i', D'⟩ ∧
      Copied N n buf s D E s' D' E' ∧
      (0 < s'.bytesWritten ↔ FirstPass o (sizeAt E n) (clearBlocks N E).card i) ∧
      (0 < s'.bytesWritten → i' = loopEnd o (sizeAt E n) buf.length (clearBlocks N E).card i) := by
  have hpos := List.length_pos_iff.mpr hbuf
  have hle : s.bytesWritten ≤ buf.length := by omega
  unfold FirstPass loopEnd
  by_cases hoff : sizeAt E n % 16384 = 0
  · have hslack : slack (sizeAt E n) = 0 := by
      unfold slack
      omega
    obtain ⟨s', D', E', hrun, hcopied, hiff⟩ :=
      h.runWith_passes (o := o) (i := i) hoffset hle hN (Or.inl hoff) buf.length (by omega)
    rw [hstart, and_iff_right hpos] at hiff
    rw [hstart] at hrun
    rw [hslack, if_neg (not_not_intro rfl), if_neg (not_not_intro rfl)]
    exact ⟨s', _, D', E', hrun, hcopied, hiff, fun _ => rfl⟩
  · have hslack : slack (sizeAt E n) = 16384 - sizeAt E n % 16384 := by
      unfold slack
      omega
    have hne : slack (sizeAt E n) ≠ 0 := by omega
    generalize ht : min (16384 - sizeAt E n % 16384) (buf.length - s.bytesWritten) = t
    have hlt : s.bytesWritten < buf.length := by omega
    have hlen : (chunkList buf s t).length = t := length_chunkList (by omega)
    obtain ⟨fuel, hfuel⟩ : ∃ fuel, buf.length = fuel + 1 := ⟨buf.length - 1, by omega⟩
    rw [if_pos hne, if_pos hne, hfuel, writeLoop, if_pos hlt, runWith_bind, ← hfuel]
    by_cases hok : o i = true ∧ o (i + 1) = true
    · obtain ⟨s₁, D₁, hrun, hbytes, -, hnext⟩ := (h.runWith_old hoffset hlt ht.symm hoff).1 hok
      have hpass : Copied N n buf s D E s₁ D₁ (fillBlock n E (chunkList buf s t)) :=
        .pass hnext hbytes (by omega) (content_fillBlock h.growing hoff (by omega))
      have hsize := sizeAt_fillBlock (l := chunkList buf s t) h.growing (by omega)
      have hclear := clearBlocks_fillBlock (l := chunkList buf s t) h.growing hoff
      have hoffset₁ : offset = s₁.inode.size.toNat := by
        rw [hnext.inode]
        exact hoffset
      -- behind the first pass the file ends with a block, or the buffer is used up
      have hend : sizeAt (fillBlock n E (chunkList buf s t)) n % 16384 = 0 ∨
          s₁.bytesWritten = buf.length := by omega
      obtain ⟨s', D', E', hloop, hcopied, -⟩ := hnext.running.runWith_passes (o := o) (i := i + 2)
        hoffset₁ hpass.le_length hN hend fuel (by omega)
      have hrest : (buf.length - s₁.bytesWritten + 16383) / 16384 =
          (buf.length - slack (sizeAt E n) + 16383) / 16384 := by omega
      have hmore := hcopied.le
      rw [hrest, hclear] at hloop
      rw [hrun]
      exact ⟨s', _, D', E', hloop, hpass.trans hcopied, iff_of_true (by omega) hok, fun _ => rfl⟩
    · obtain ⟨i', hrun⟩ := (h.runWith_old hoffset hlt ht.symm hoff).2 hok
      rw [hrun]
      refine ⟨{ s with rc := -eio }, i', D, E, rfl, .stop (.stop h (by decide)) rfl hle rfl, ?_,
        fun hcopied => absurd hstart (Nat.ne_of_gt hcopied)⟩
      exact iff_of_false (fun hcopied => absurd hstart (Nat.ne_of_gt hcopied)) hok

end Loop

/-! ## The commit and the index block with failing transfers -/

section Commit

variable {N n : Nat} {s : WriteState} {D E d : Disk} {superblock : MfsSuperblock}
  {o : Nat → Bool} {i : Nat} (allocated : Bool) (now : UInt64)

/-- The three transfers of the commit decide whether the copied bytes are shown; the return
value does not depend on them. -/
theorem Running.runWith_commit (h : Running N n s D E) (hpos : 0 < s.bytesWritten) :
    ∃ i' D', runWith o i (writeCommit s allocated now) D = ⟨(s.bytesWritten : Int), i', D'⟩ ∧
      ((o i = true ∧ o (i + 1) = true ∧ o (i + 2) = true) → D' = touch n now E) ∧
      (¬ (o i = true ∧ o (i + 1) = true ∧ o (i + 2) = true) → inodeAt D' n = inodeAt D n) := by
  have hnum := h.growing.number
  have hib := h.growing.index_range
  -- before its last transfer the commit leaves the record alone
  have hrec : inodeAt (Function.update D (indexAt E n) s.idxData) n = inodeAt D n :=
    inodeAt_congr hnum.2 (Function.update_of_ne (by omega) _ _)
      (Function.update_of_ne (by omega) _ _)
  rw [h.writeCommit_eq (Or.inl hpos)]
  simp only [if_pos hpos]
  cases hindex : o i with
  | false =>
    rw [runWith_write_fail hindex]
    exact ⟨_, _, rfl, fun hok => absurd hok.1 Bool.false_ne_true, fun _ => rfl⟩
  | true =>
    rw [runWith_write_ok hindex]
    simp only [if_true]
    cases hread : o (i + 1) with
    | false =>
      rw [runWith_read_fail hread]
      exact ⟨_, _, rfl, fun hok => absurd hok.2.1 Bool.false_ne_true, fun _ => hrec⟩
    | true =>
      rw [runWith_read_ok hread]
      cases hwrite : o (i + 2) with
      | false =>
        rw [runWith_write_fail hwrite]
        exact ⟨_, _, rfl, fun hok => absurd hok.2.2 Bool.false_ne_true, fun _ => hrec⟩
      | true =>
        rw [runWith_write_ok hwrite]
        exact ⟨_, _, rfl, fun _ => h.disk_commit now, fun hno => absurd (by simp) hno⟩

/-- Without a copied byte the call does not return a count. -/
theorem Running.runWith_commit_none (h : Running N n s D E) (hzero : s.bytesWritten = 0)
    (hrc : s.rc ≤ 0) : (runWith o i (writeCommit s allocated now) D).result ≤ 0 := by
  have hno : ¬ s.bytesWritten > 0 := by omega
  have heio : -eio ≤ 0 := by decide
  -- an index block taken in vain is still committed
  by_cases hcommit : s.bytesWritten > 0 ∨ allocated = true
  · rw [h.writeCommit_eq hcommit]
    simp only [if_neg hno]
    cases hindex : o i with
    | false =>
      rw [runWith_write_fail hindex]
      exact heio
    | true =>
      rw [runWith_write_ok hindex]
      simp only [if_true]
      cases hread : o (i + 1) with
      | false =>
        rw [runWith_read_fail hread]
        exact heio
      | true =>
        rw [runWith_read_ok hread]
        cases hwrite : o (i + 2) with
        | false =>
          rw [runWith_write_fail hwrite]
          exact heio
        | true =>
          rw [runWith_write_ok hwrite]
          exact hrc
  · unfold writeCommit
    rw [if_neg hcommit, if_neg hno]
    exact hrc

/-- The transfers that load the index block, or allocate it. -/
def loadCount (n : Nat) (d : Disk) : Nat := if indexAt d n = 0 then 3 else 1

/-- The index block is in memory: the loop can start. -/
structure Loaded (N n : Nat) (d : Disk) (idxData : Block) (inode : MfsInode) (D E : Disk) :
    Prop where
  running : Running N n ⟨0, idxData, inode, 0⟩ D E
  mode : inode.mode = (inodeAt d n).mode
  record : inodeAt D n = inodeAt d n
  size : sizeAt E n = sizeAt d n
  content : content E n = content d n
  clear : (clearBlocks N E).card = dataBlocks N n d

theorem FsInv.loaded_old (h : FsInv N d) (hN4 : N ≤ 4096) (hn : IsFile d n)
    (hib : indexAt d n ≠ 0) : Loaded N n d (d (indexAt d n)) (inodeAt d n) d d :=
  ⟨(h.growing hN4 hn hib).running (h.file n hn).inodeNo, rfl, rfl, rfl, rfl,
    by rw [dataBlocks, if_neg hib]⟩

theorem FsInv.loaded_new (h : FsInv N d) (hN4 : N ≤ 4096) (hn : IsFile d n)
    (hib : indexAt d n = 0) {b : Nat} (hb : 6 ≤ b ∧ b < N ∧ bitAt d b = false) :
    Loaded N n d zero { inodeAt d n with indexBlock := UInt32.ofNat b }
      (Function.update (Function.update d 1 (mfsSetBit (d 1) b true)) b zero)
      (giveIndex n d b) := by
  have hgive := h.running_giveIndex hN4 hn hib ⟨hb.1, hb.2.1⟩
  have hrange := h.dir.file_range hn
  have hempty := ((h.file n hn).unindexed hib).1
  have hcard := (clearBlocks_giveIndex hrange.2 hb).2
  have hsize : sizeAt (giveIndex n d b) n = sizeAt d n := hgive.size
  refine ⟨hgive, rfl, ?_, hsize, ?_, ?_⟩
  · -- the record is in neither block
    refine inodeAt_congr hrange.2 ?_ ?_
    · rw [Function.update_of_ne (by omega), Function.update_of_ne (by decide)]
    · rw [Function.update_of_ne (by omega), Function.update_of_ne (by decide)]
  · -- an empty file has no bytes, with an index block or without
    have hnil : ∀ d', sizeAt d' n = 0 → content d' n = [] := fun d' hz =>
      List.eq_nil_of_length_eq_zero (by rw [content_length, hz])
    rw [hnil _ (hsize.trans hempty), hnil _ hempty]
  · -- the index block is one block more
    rw [dataBlocks, if_pos hib]
    omega

/-- The transfers `i`, … of the index block succeed, and there is a block for it. -/
def Loads (o : Nat → Bool) (N n : Nat) (d : Disk) (i : Nat) : Prop :=
  (∀ j < loadCount n d, o (i + j) = true) ∧ (indexAt d n = 0 → clearBlocks N d ≠ ∅)

theorem not_loads {j : Nat} (hj : j < loadCount n d) (hfail : o (i + j) = false) :
    ¬ Loads o N n d i := by
  intro hall
  have hok := hall.1 j hj
  rw [hfail] at hok
  exact Bool.false_ne_true hok

/-- The index block is loaded iff its transfers succeed and there is one to be had. -/
def LoadEnds (superblock : MfsSuperblock) (N n : Nat) (d : Disk) (o : Nat → Bool) (i : Nat) :
    Prop :=
  (Loads o N n d i → ∃ idxData inode D E allocated,
    runWith o i (loadIndexBlock superblock (inodeAt d n)) d =
      ⟨.ok (idxData, inode, allocated), i + loadCount n d, D⟩ ∧
    Loaded N n d idxData inode D E) ∧
  (¬ Loads o N n d i → ∃ rc i' D,
    runWith o i (loadIndexBlock superblock (inodeAt d n)) d = ⟨.error rc, i', D⟩ ∧ rc < 0)

/-- A file that has an index block: one transfer reads it. -/
theorem FsInv.runWith_loadOld (h : FsInv N d) (hN4 : N ≤ 4096) (hn : IsFile d n)
    (hib : indexAt d n ≠ 0) (o : Nat → Bool) (i : Nat) :
    LoadEnds superblock N n d o i := by
  have hindex : (inodeAt d n).indexBlock ≠ 0 := fun hz => hib (UInt32.toNat_inj.mpr hz)
  have hone : loadCount n d = 1 := if_neg hib
  unfold LoadEnds loadIndexBlock
  rw [if_neg hindex]
  -- on the one transfer of the load
  cases hread : o i with
  | false =>
    have hno : ¬ Loads o N n d i := not_loads (j := 0) (by omega) hread
    refine ⟨fun hall => absurd hall hno, fun _ => ⟨-eio, i + 1, d, runWith_read_fail hread, ?_⟩⟩
    decide
  | true =>
    refine ⟨fun _ => ⟨_, _, _, _, false, ?_, h.loaded_old hN4 hn hib⟩, ?_⟩
    · rw [hone]
      exact runWith_read_ok hread
    · intro hno
      refine absurd ⟨fun j hj => ?_, fun hz => absurd hz hib⟩ hno
      rw [show j = 0 by omega]
      exact hread

/-- A file without one: the block is looked for, marked and cleared. -/
theorem FsInv.runWith_loadNew (h : FsInv N d) (hN4 : N ≤ 4096) (hn : IsFile d n)
    (hN : superblock.blockCount.toNat = N) (hib : indexAt d n = 0) (o : Nat → Bool) (i : Nat) :
    LoadEnds superblock N n d o i := by
  have heio : -eio < 0 := by decide
  have hindex : (inodeAt d n).indexBlock = 0 := UInt32.toNat_inj.mp hib
  have hthree : loadCount n d = 3 := if_pos hib
  unfold LoadEnds loadIndexBlock
  rw [if_pos hindex]
  cases hclear : firstClear N d with
  | none =>
    have hempty := Finset.card_eq_zero.mp (firstClear_eq_none_iff.mp hclear)
    rw [runWith_allocateBlock_full hN hclear]
    refine ⟨fun hall => absurd hempty (hall.2 hib), fun _ => ⟨_, _, _, rfl, ?_⟩⟩
    split <;> decide
  | some b =>
    have hfresh := firstClear_some hclear
    by_cases htaken : o i = true ∧ o (i + 1) = true
    · rw [runWith_allocateBlock_ok hN hclear htaken.1 htaken.2]
      simp only [mfsWriteBlock, writeBlock_bind]
      cases hdata : o (i + 2) with
      | false =>
        -- the block is given back, and the call ends with -EIO whether that works or not
        rw [runWith_write_fail hdata]
        have hno : ¬ Loads o N n d i := not_loads (by omega) hdata
        exact ⟨fun hall => absurd hall hno, fun _ => ⟨_, _, _, runWith_bind _ _, heio⟩⟩
      | true =>
        rw [runWith_write_ok hdata, toNat_ofNat_block hN4 hfresh.2.1, hthree]
        have hloads : Loads o N n d i := by
          refine ⟨fun j hj => ?_, fun _ hempty => ?_⟩
          · have hcases : j = 0 ∨ j = 1 ∨ j = 2 := by omega
            rcases hcases with rfl | rfl | rfl
            · exact htaken.1
            · exact htaken.2
            · exact hdata
          · have hmem := mem_of_firstClear hclear
            rw [hempty] at hmem
            exact absurd hmem (Finset.notMem_empty b)
        exact ⟨fun _ => ⟨_, _, _, _, true, rfl, h.loaded_new hN4 hn hib hfresh⟩,
          fun hno => absurd hloads hno⟩
    · have hno : ¬ Loads o N n d i := fun hall =>
        htaken ⟨hall.1 0 (by omega), hall.1 1 (by omega)⟩
      rw [runWith_allocateBlock_fail hN hclear htaken]
      exact ⟨fun hall => absurd hall hno, fun _ => ⟨_, _, _, rfl, heio⟩⟩

theorem FsInv.runWith_load (h : FsInv N d) (hN4 : N ≤ 4096) (hn : IsFile d n)
    (hN : superblock.blockCount.toNat = N) (o : Nat → Bool) (i : Nat) :
    LoadEnds superblock N n d o i := by
  by_cases hib : indexAt d n = 0
  · exact h.runWith_loadNew hN4 hn hN hib o i
  · exact h.runWith_loadOld hN4 hn hib o i

end Commit

/-! ## The file behind the commit -/

section Shown

variable {N n : Nat} {s : WriteState} {D E d : Disk} {path : CString} {text : List UInt8}
  {slot : Nat} {t : UInt64}

theorem content_touch (h : Growing N n E) : content (touch n t E) n = content E n := by
  have hnum := h.number
  exact h.content_congr (sizeAt_touch (by omega)) (indexAt_touch (by omega))
    fun k hk => touch_of_ne hnum.2 (by omega) (by omega)

/-- The file is consistent behind the commit. -/
theorem Running.fileOk_touch (h : Running N n s D E)
    (hmode : s.inode.mode = sIfreg ||| (s.inode.mode &&& 0o777)) : FileOk (touch n t E) n := by
  have hnum := h.growing.number
  have hib := h.growing.index_range
  have hrec : inodeAt (touch n t E) n = { s.inode.grown s.bytesWritten with mtime := t } := by
    rw [inodeAt_touch (by omega), h.record]
  have hindex : indexAt (touch n t E) n = indexAt E n := indexAt_touch (by omega)
  have hidx : idxAt (touch n t E) (indexAt E n) = idxAt E (indexAt E n) := funext fun k =>
    idxAt_congr (touch_of_ne hnum.2 (by omega) (by omega)) k
  -- on the four things a file has
  refine ⟨?_, ?_, ?_, ?_⟩
  · rw [hrec]
    exact h.number
  · rw [hrec]
    exact hmode
  · intro hz
    rw [hindex] at hz
    omega
  · intro _
    rw [hindex, hidx, sizeAt_touch (by omega), countAt_touch (by omega)]
    exact h.growing.shape

/-- A read of a consistent file. -/
theorem run_mfsRead_file (hdir : DirInv d) (hok : FileOk d n) (hpath : FilePath path text)
    (hn : Named d text slot n) {size : Nat} (hpos : 0 < size) (hsize : size < 2 ^ 31) (o : Nat) :
    (run (mfsRead path size o) d).1 =
      (((((content d n).drop o).take size).length : Int), ((content d n).drop o).take size) := by
  have hvalid := hdir.valid_named hn
  obtain ⟨name, hname, rfl⟩ := hpath.name
  unfold mfsRead
  rw [if_neg (by omega), hname]
  simp only [if_neg hpath.nonempty]
  rw [run_bind, (returns_findDirEntry d name).run, hdir.lookup_ok hvalid.ne_dot hvalid.ne_dotdot hn]
  have hread : Returns (readFile (entryAt d slot).inodeNo size o) d _ :=
    hdir.returns_readFile hn.inodeNo hn.toFileAt.isFile hok hsize
  exact congrArg Prod.fst hread.run

end Shown

/-! ## The handler -/

/-- The bytes `mfs_write` has acknowledged with `rc` are in file `n`. -/
structure Acknowledged (n : Nat) (d : Disk) (path : CString) (buf : List UInt8) (rc : Int)
    (d' : Disk) : Prop where
  grown : rc > 0 → (sizeAt d' n : Int) = sizeAt d n + rc
  read : rc > 0 → ∀ size : Nat, rc ≤ size → size < 2 ^ 31 →
    (run (mfsRead path size (sizeAt d n)) d').1 = (rc, buf.take rc.toNat)

/-- The call copies at least one byte to a data block. -/
def Copies (o : Nat → Bool) (N n : Nat) (d : Disk) (len : Nat) : Prop :=
  0 < len ∧ o 0 = true ∧ o 1 = true ∧ Loads o N n d 2 ∧
    FirstPass o (sizeAt d n) (dataBlocks N n d) (2 + loadCount n d)

/-- The first transfer of the commit. -/
def commitAt (o : Nat → Bool) (N n : Nat) (d : Disk) (len : Nat) : Nat :=
  loopEnd o (sizeAt d n) len (dataBlocks N n d) (2 + loadCount n d)

/-- The three transfers of the commit succeed: the index block, and the read and the write of
the record. -/
def CommitOk (o : Nat → Bool) (N n : Nat) (d : Disk) (len : Nat) : Prop :=
  o (commitAt o N n d len) = true ∧ o (commitAt o N n d len + 1) = true ∧
    o (commitAt o N n d len + 2) = true

section Handler

variable {N : UInt32} {n : Nat} {d : Disk} {path name : CString} {slot : Nat} {buf : List UInt8}
  {o : Nat → Bool} (now : UInt64)

/-- The call up to the index block: directory and record. -/
theorem runWith_mfsWrite_front (h : FsInv N.toNat d) (hname : pathName path = some name)
    (hn : Named d name.val slot n) (hbuf : buf ≠ []) :
    ((o 0 = true ∧ o 1 = true) →
      runWith o 0 (mfsWrite (formatSuperblock N) path buf (sizeAt d n) now) d =
        runWith o 2 (writeIndexed (formatSuperblock N) (inodeAt d n) buf (sizeAt d n) now) d) ∧
    (¬ (o 0 = true ∧ o 1 = true) →
      (runWith o 0 (mfsWrite (formatSuperblock N) path buf (sizeAt d n) now) d).result ≤ 0) := by
  have hvalid := h.dir.valid_named hn
  have hfile := hn.toFileAt.isFile
  have hrange := h.dir.file_range hfile
  have hno := hn.inodeNo
  have hload := loadInode_ok (show 1 ≤ n by omega) (h.file n hfile).inodeNo
  have hsize : (inodeAt d n).size.toNat = sizeAt d n := rfl
  have heio : -eio ≤ 0 := by decide
  unfold mfsWrite
  rw [if_neg (by simpa using hbuf), hname]
  simp only [if_neg (List.ne_nil_of_length_pos hvalid.pos)]
  rw [findDirEntry_eq, read_bind]
  -- the directory, then the inode table
  cases hdir : o 0 with
  | false =>
    rw [runWith_read_fail hdir]
    exact ⟨fun hok => absurd hok.1 Bool.false_ne_true, fun _ => heio⟩
  | true =>
    rw [runWith_read_ok hdir]
    simp only [done_bind, h.dir.lookup_ok hvalid.ne_dot hvalid.ne_dotdot hn]
    rw [writeFile_eq, readInode_eq (by omega) (by omega), read_bind, hno]
    cases htable : o 1 with
    | false =>
      rw [runWith_read_fail htable]
      exact ⟨fun hok => absurd hok.2 Bool.false_ne_true, fun _ => heio⟩
    | true =>
      rw [runWith_read_ok htable]
      refine ⟨?_, fun hno => absurd (by simp) hno⟩
      intro _
      simp only [done_bind, hload, hsize, ne_eq, not_true_eq_false, if_false]

theorem Loaded.offset {N : Nat} {idxData : Block} {inode : MfsInode} {D E : Disk}
    (h : Loaded N n d idxData inode D E) : (sizeAt d n : Int) = inode.size.toNat := by
  have hsize := h.running.size
  rw [h.size] at hsize
  exact congrArg Nat.cast hsize

section Behind

variable (h : FsInv N.toNat d) (hN4 : N.toNat ≤ 4096) (hfile : IsFile d n) (hbuf : buf ≠ [])
include h hN4 hfile hbuf

/-- Without a copied byte the rest of the call returns no count. -/
theorem runWith_writeIndexed_none (hfront : o 0 = true ∧ o 1 = true)
    (hno : ¬ Copies o N.toNat n d buf.length) :
    (runWith o 2 (writeIndexed (formatSuperblock N) (inodeAt d n) buf (sizeAt d n) now)
      d).result ≤ 0 := by
  have hpos := List.length_pos_iff.mpr hbuf
  have hN : (formatSuperblock N).blockCount.toNat = N.toNat := rfl
  obtain ⟨hok, hbad⟩ := h.runWith_load hN4 hfile hN o 2
  rw [writeIndexed, runWith_bind]
  by_cases hloads : Loads o N.toNat n d 2
  · obtain ⟨idxData, inode, D, E, allocated, hload, hready⟩ := hok hloads
    obtain ⟨s', i', D', E', hloop, hcopied, hiff, -⟩ :=
      hready.running.runWith_loop (o := o) (i := 2 + loadCount n d) hready.offset rfl hbuf hN
    rw [hready.size, hready.clear] at hiff
    -- a byte copied would be one of a first pass that went well
    have hzero : s'.bytesWritten = 0 := by
      by_contra hne
      exact hno ⟨hpos, hfront.1, hfront.2, hloads, hiff.mp (Nat.pos_of_ne_zero hne)⟩
    rw [hload]
    show (runWith o (2 + loadCount n d) (writeLoop _ _ _ _ _ >>= _) D).result ≤ 0
    rw [runWith_bind, hloop]
    exact hcopied.running.runWith_commit_none _ _ hzero (hcopied.rc (Int.le_refl 0))
  · obtain ⟨rc, i', D, hload, hneg⟩ := hbad hloads
    rw [hload]
    exact Int.le_of_lt hneg

/-- With a copied byte it returns their number, and whether they are shown is decided by the
three transfers of the commit. -/
theorem runWith_writeIndexed_some (hcopies : Copies o N.toNat n d buf.length) :
    ∃ m i' d', runWith o 2
        (writeIndexed (formatSuperblock N) (inodeAt d n) buf (sizeAt d n) now) d =
        ⟨((m : Nat) : Int), i', d'⟩ ∧ 0 < m ∧ m ≤ buf.length ∧
      (CommitOk o N.toNat n d buf.length →
        FileOk d' n ∧ content d' n = content d n ++ buf.take m) ∧
      (¬ CommitOk o N.toNat n d buf.length → sizeAt d' n = sizeAt d n) := by
  have hN : (formatSuperblock N).blockCount.toNat = N.toNat := rfl
  obtain ⟨-, -, -, hloads, hfirst⟩ := hcopies
  obtain ⟨idxData, inode, D, E, allocated, hload, hready⟩ :=
    (h.runWith_load hN4 hfile hN o 2).1 hloads
  obtain ⟨s', i', D', E', hloop, hcopied, hiff, hend⟩ :=
    hready.running.runWith_loop (o := o) (i := 2 + loadCount n d) hready.offset rfl hbuf hN
  rw [hready.size, hready.clear] at hiff hend
  have hpos := hiff.mpr hfirst
  obtain ⟨i'', d', hcommit, hshown, hlost⟩ :=
    hcopied.running.runWith_commit (o := o) (i := i') allocated now hpos
  rw [hend hpos] at hshown hlost
  refine ⟨s'.bytesWritten, i'', d', ?_, hpos, hcopied.le_length, ?_, ?_⟩
  · rw [writeIndexed, runWith_bind, hload]
    show runWith o (2 + loadCount n d) (writeLoop _ _ _ _ _ >>= _) D = _
    rw [runWith_bind, hloop]
    exact hcommit
  · intro hok
    have hmode : s'.inode.mode = sIfreg ||| (s'.inode.mode &&& 0o777) := by
      rw [hcopied.inode]
      show inode.mode = sIfreg ||| (inode.mode &&& 0o777)
      rw [hready.mode]
      exact (h.file n hfile).mode
    rw [hshown hok]
    refine ⟨hcopied.running.fileOk_touch hmode, ?_⟩
    rw [content_touch hcopied.running.growing, hcopied.content, hready.content]
    rfl
  · intro hno
    have hrange := h.dir.file_range hfile
    -- neither the index block nor the loop has touched the table
    have hkept : inodeAt D' n = inodeAt D n :=
      inodeAt_congr hrange.2 (hcopied.kept 3 (by decide) (by decide))
        (hcopied.kept 4 (by decide) (by decide))
    rw [sizeAt, hlost hno, hkept, hready.record]
    rfl

end Behind

theorem acknowledged_none {rc : Int} {d' : Disk} (hrc : rc ≤ 0) :
    Acknowledged n d path buf rc d' :=
  ⟨fun hpos => absurd hpos (Int.not_lt.mpr hrc), fun hpos => absurd hpos (Int.not_lt.mpr hrc)⟩

/-- Bytes that are shown are read back. -/
theorem acknowledged_some {text : List UInt8} {m : Nat} {d' : Disk} (hdir : DirInv d')
    (hok : FileOk d' n) (hpath : FilePath path text) (hn : Named d' text slot n) (hpos : 0 < m)
    (hle : m ≤ buf.length) (hcontent : content d' n = content d n ++ buf.take m) :
    Acknowledged n d path buf m d' := by
  have hlen := congrArg List.length hcontent
  rw [List.length_append, content_length, content_length, List.length_take_of_le hle] at hlen
  refine ⟨fun _ => by rw [hlen]; rfl, ?_⟩
  intro _ size hm hsize
  have htake : ((content d' n).drop (sizeAt d n)).take size = buf.take m := by
    rw [hcontent, ← content_length, List.drop_left, List.take_take, Nat.min_eq_right (by omega)]
  rw [run_mfsRead_file hdir hok hpath hn (by omega) hsize, htake, List.length_take_of_le hle]
  rfl

/-- **The acknowledged bytes are in the file unless the commit fails**, for every image between
two calls, every file, every buffer and every pattern of failing transfers. -/
theorem mfsWrite_acknowledged_iff {text : List UInt8} (hreach : Reachable N d)
    (hpath : FilePath path text) (hn : Named d text slot n) (buf : List UInt8) (now : UInt64)
    (o : Nat → Bool) :
    Acknowledged n d path buf
        (runWith o 0 (mfsWrite (formatSuperblock N) path buf (sizeAt d n) now) d).result
        (runWith o 0 (mfsWrite (formatSuperblock N) path buf (sizeAt d n) now) d).disk ↔
      (Copies o N.toNat n d buf.length → CommitOk o N.toNat n d buf.length) := by
  obtain ⟨h, -, hN4⟩ := hreach.inv
  have hfile := hn.toFileAt.isFile
  have hvalid := h.dir.valid_named hn
  obtain ⟨name, hname, rfl⟩ := hpath.name
  by_cases hbuf : buf = []
  · subst hbuf
    exact iff_of_true (acknowledged_none (Int.le_refl 0)) fun hc => absurd hc.1 (Nat.lt_irrefl 0)
  · obtain ⟨hfront, hearly⟩ := runWith_mfsWrite_front (o := o) now h hname hn hbuf
    by_cases hread : o 0 = true ∧ o 1 = true
    · by_cases hcopies : Copies o N.toNat n d buf.length
      · rw [imp_iff_right hcopies]
        obtain ⟨m, i', d', hrun, hpos, hle, hshown, hlost⟩ :=
          runWith_writeIndexed_some now h hN4 hfile hbuf hcopies
        rw [← hfront hread] at hrun
        constructor
        · intro hack
          by_contra hno
          -- the file is as long as before
          have hgrown := hack.grown (by rw [hrun]; exact Int.natCast_pos.mpr hpos)
          rw [hrun] at hgrown
          have hsame := hlost hno
          simp only at hgrown
          omega
        · intro hok
          -- whatever fails, the directory stays
          have hwp : wp (writer N.toNat n True)
              (mfsWrite (formatSuperblock N) path buf (sizeAt d n) now) _ h.world :=
            wp_mfsWrite hname hvalid.ne_dot hvalid.ne_dotdot hn (h.appended hfile) rfl hN4
          obtain ⟨w', hguar, hdisk, -⟩ := runWith_of_wp (o := o) (t := 0) trivial hwp
          change w'.disk = (runWith o 0 _ d).disk at hdisk
          rw [hrun] at hdisk ⊢
          change w'.disk = d' at hdisk
          subst hdisk
          obtain ⟨hfileOk, hcontent⟩ := hshown hok
          exact acknowledged_some w'.dir hfileOk hpath ((named_congr hguar.dir.rootDir).mpr hn) hpos
            hle hcontent
      · refine iff_of_true (acknowledged_none ?_) fun hc => absurd hc hcopies
        rw [hfront hread]
        exact runWith_writeIndexed_none now h hN4 hfile hbuf hread hcopies
    · refine iff_of_true (acknowledged_none (hearly hread)) ?_
      intro hc
      exact absurd ⟨hc.2.1, hc.2.2.1⟩ hread

/-- A block of bytes for `/a`, whose last byte would be the first of a second block. The bitmap
cannot be read for that one, the commit behind it succeeds, and the bytes that `mfs_write`
reports are in the file. -/
theorem mfsWrite_acknowledged_a : Acknowledged 2 oneFile pathA (List.replicate 16384 121)
    (runWith (allBut 5) 0 (mfsWrite (formatSuperblock 128) pathA (List.replicate 16384 121)
      (sizeAt oneFile 2) 0) oneFile).result
    (runWith (allBut 5) 0 (mfsWrite (formatSuperblock 128) pathA (List.replicate 16384 121)
      (sizeAt oneFile 2) 0) oneFile).disk := by
  have hcommit : commitAt (allBut 5) (128 : UInt32).toNat 2 oneFile 16384 = 6 := by
    decide +kernel
  refine (mfsWrite_acknowledged_iff oneFile_reachable ⟨rfl, by decide, by decide⟩ oneFile_named
    (List.replicate 16384 121) 0 (allBut 5)).mpr fun _ => ?_
  rw [List.length_replicate, CommitOk, hcommit]
  decide

/-- The eighth transfer writes the record of `/a`; when it fails, `mfs_write` returns 1 and the
file is as long as before. -/
theorem mfsWrite_lost : ¬ ∀ (N : UInt32) (d : Disk) (path : CString) (text : List UInt8)
    (slot n : Nat) (buf : List UInt8) (now : UInt64) (o : Nat → Bool), Reachable N d →
    FilePath path text → Named d text slot n → Acknowledged n d path buf
      (runWith o 0 (mfsWrite (formatSuperblock N) path buf (sizeAt d n) now) d).result
      (runWith o 0 (mfsWrite (formatSuperblock N) path buf (sizeAt d n) now) d).disk := by
  intro hall
  have hack := hall 128 oneFile pathA [97] 2 2 [121] 0 (allBut 7) oneFile_reachable
    ⟨rfl, by decide, by decide⟩ oneFile_named
  have hgrown := hack.grown (by decide +kernel)
  exact absurd hgrown (by decide +kernel)

end Handler

end OsProjects.Mfs
