import OsProjects.Mfs.Capacity

/-!
# Failing calls on a healthy disk

A call that returns an error has changed nothing, with one exception: an empty file that
gets the last clear block as its index block keeps it, although no data block is left
(`LastBlock`, `failing_call`).
-/

namespace OsProjects.Mfs

open Bytes Prog Prefix

/-- The call writes to file `n`, which has no index block yet, and `b` is the last clear
block. -/
structure LastBlock (N : Nat) (d : Disk) (c : Call) (n b : Nat) (now : UInt64) : Prop where
  write : ∃ path text s buf, c = .write path buf (sizeAt d n) now ∧ FilePath path text ∧
    Named d text s n ∧ buf ≠ []
  index : indexAt d n = 0
  clear : clearBlocks N d = {b}

section Write

variable {N : UInt32} {d : Disk} {path : CString} {text : List UInt8} {s n : Nat}
  {buf : List UInt8} {offset : Int}

/-- A write in front of the end, or behind it. -/
theorem run_mfsWrite_inside (h : FsInv N.toNat d) (hpath : FilePath path text)
    (hn : Named d text s n) (hbuf : buf ≠ []) (hoff : offset ≠ sizeAt d n) (now : UInt64) :
    run (mfsWrite (formatSuperblock N) path buf offset now) d = (-eopnotsupp, d) := by
  have hvalid := h.dir.valid_named hn
  obtain ⟨name, hname, rfl⟩ := hpath.name
  rw [run_mfsWrite_checks h hname hvalid.ne_dot hvalid.ne_dotdot hn hbuf now, if_pos hoff]
  rfl

section Grow

variable {N n b : Nat} (h : FsInv N d) (hN4 : N ≤ 4096) (hn : IsFile d n)
include h hN4 hn

/-- The room that is left behind the index block. -/
theorem room_giveIndex (buf : List UInt8) (hib : indexAt d n = 0)
    (hb : 6 ≤ b ∧ b < N ∧ bitAt d b = false) :
    room N n (giveIndex n d b) = 16384 * ((clearBlocks N d).card - 1) ∧
      (consume (putByte N n) (giveIndex n d b) buf).1 =
        min buf.length (room N n (giveIndex n d b)) := by
  have hgive := h.running_giveIndex hN4 hn hib ⟨hb.1, hb.2.1⟩
  have hcard := (clearBlocks_giveIndex (h.dir.file_range hn).2 hb).2
  have hsize : sizeAt (giveIndex n d b) n = 0 := by
    rw [hgive.size]
    exact ((h.file n hn).unindexed hib).1
  refine ⟨?_, consume_room hgive.growing buf⟩
  rw [room, hsize, ← hcard, Nat.add_sub_cancel]
  exact Nat.zero_add _

/-- The one write that fails and leaves something. -/
theorem growFile_lastBlock (buf : List UInt8) (hib : indexAt d n = 0)
    (hclear : clearBlocks N d = {b}) (now : UInt64) :
    growFile N n d buf now = (-enospc, touch n now (giveIndex n d b)) := by
  unfold growFile indexed
  rw [if_neg (not_not_intro hib)]
  cases hfirst : firstClear N d with
  | none =>
    have hnone := firstClear_eq_none_iff.mp hfirst
    rw [hclear, Finset.card_singleton] at hnone
    exact absurd hnone (by decide)
  | some b' =>
    have hfresh := firstClear_some hfirst
    have hmem := mem_of_firstClear hfirst
    rw [hclear, Finset.mem_singleton] at hmem
    subst hmem
    -- the index block was the last one
    obtain ⟨hroom, hcount⟩ := room_giveIndex h hN4 hn buf hib hfresh
    rw [hroom, hclear, Finset.card_singleton, Nat.sub_self, Nat.mul_zero, Nat.min_zero] at hcount
    simp only [Option.map_some, hcount, consume_zero hcount, hib]
    rfl

/-- With more or fewer blocks a failing write leaves nothing. -/
theorem growFile_failing (hbuf : buf ≠ [])
    (hlast : ∀ b, ¬ (indexAt d n = 0 ∧ clearBlocks N d = {b})) (now : UInt64)
    (hneg : (growFile N n d buf now).1 < 0) : (growFile N n d buf now).2 = d := by
  have hpos := List.length_pos_iff.mpr hbuf
  unfold growFile indexed at hneg ⊢
  by_cases hib : indexAt d n = 0
  · rw [if_neg (not_not_intro hib)] at hneg ⊢
    cases hfirst : firstClear N d with
    | none => rfl
    | some b =>
      have hfresh := firstClear_some hfirst
      have hmem := mem_of_firstClear hfirst
      have hcard : (clearBlocks N d).card ≠ 1 := fun hone => by
        obtain ⟨b', hb'⟩ := Finset.card_eq_one.mp hone
        exact hlast b' ⟨hib, hb'⟩
      have hsome := Finset.card_pos.mpr ⟨b, hmem⟩
      -- a second clear block holds at least a byte
      obtain ⟨hroom, hcount⟩ := room_giveIndex h hN4 hn buf hib hfresh
      simp only [hfirst, Option.map_some, hib, ne_eq, not_true_eq_false, and_false,
        if_false] at hneg
      rw [if_pos (by omega)] at hneg
      omega
  · -- with an index block the file is given no other, and an error means that no byte was put
    simp only [if_pos hib] at hneg ⊢
    by_cases hzero : (consume (putByte N n) d buf).1 = 0
    · rw [if_pos ⟨hzero, hib⟩]
    · rw [if_neg fun hboth => hzero hboth.1, if_pos (by omega)] at hneg
      omega

end Grow

end Write

section Call

variable {N : UInt32} {d : Disk} {c : Call}

/-- The last clear block becomes the index block of a file without data. -/
theorem lastBlock_call (hinv : FsInv N.toNat d) (hN4 : N.toNat ≤ 4096) {n b : Nat} {now : UInt64}
    (hlast : LastBlock N.toNat d c n b now) :
    reply N c d = .status (-enospc) ∧ after N c d = touch n now (giveIndex n d b) := by
  obtain ⟨⟨path, text, s, buf, rfl, hpath, hn, hbuf⟩, hib, hclear⟩ := hlast
  rw [after_write.1, after_write.2, run_mfsWrite_file hinv hN4 hpath hn hbuf now,
    growFile_lastBlock hinv hN4 hn.toFileAt.isFile buf hib hclear now]
  exact ⟨rfl, rfl⟩

/-- **A call that fails changes nothing, the last clear block apart.** -/
theorem failing_call (h : Reachable N d) (hres : Resolved c.path) :
    (∀ n b now, LastBlock N.toNat d c n b now →
      reply N c d = .status (-enospc) ∧ after N c d = touch n now (giveIndex n d b)) ∧
    ((∀ n b now, ¬ LastBlock N.toNat d c n b now) →
      ∀ rc, reply N c d = .status rc → rc < 0 → after N c d = d) := by
  obtain ⟨hinv, -, hN4⟩ := h.inv
  refine ⟨fun n b now hlast => lastBlock_call hinv hN4 hlast, ?_⟩
  intro hno rc hreply hneg
  -- a call without writes
  have hquiet : ∀ {r}, Returns (handle (formatSuperblock N) c) d r → after N c d = d :=
    fun hret => (after_of_returns hret).1
  cases c with
  | create path mode now =>
    have hpath : Resolved path := hres
    have hcases := hinv.run_mfsCreate hpath mode now
    rw [after_create.2] at hreply
    rw [after_create.1]
    have hrc : (run (mfsCreate path mode now) d).1 = rc := by injection hreply
    rw [hrc] at hcases
    generalize (run (mfsCreate path mode now) d).2 = d' at hcases
    cases hcases with
    | badPath | tooLong | present | full => rfl
    | created => exact absurd hneg (by decide)
  | unlink path =>
    by_cases habsent : ∀ text, FilePath path text → files d text = none
    · obtain ⟨r, hret, -⟩ := returns_mfsUnlink hinv hres habsent
      exact hquiet (hret.bind returns_done)
    · obtain ⟨name, s, n, hpath, hdot, hdotdot, -, hn⟩ := exists_named habsent hres
      -- with a file to remove the call succeeds
      rw [after_unlink.2, run_mfsUnlink hinv hpath hdot hdotdot hn] at hreply
      injection hreply with hrc
      omega
  | write path buf offset now =>
    by_cases hnone : buf = [] ∨ ∀ text, FilePath path text → files d text = none
    · obtain ⟨r, hret, -⟩ := returns_mfsWrite offset now hinv hres hnone
      exact hquiet (hret.bind returns_done)
    · obtain ⟨hbuf, hsome⟩ := not_or.mp hnone
      obtain ⟨name, s, n, -, -, -, hpath, hn⟩ := exists_named hsome hres
      rw [after_write.1]
      rw [after_write.2] at hreply
      injection hreply with hrc
      by_cases hoff : offset = sizeAt d n
      · subst hoff
        rw [run_mfsWrite_file hinv hN4 hpath hn hbuf now] at hrc ⊢
        refine growFile_failing hinv hN4 hn.toFileAt.isFile hbuf (fun b hb => ?_) now (by omega)
        exact hno n b now ⟨⟨path, name.val, s, buf, rfl, hpath, hn, hbuf⟩, hb.1, hb.2⟩
      · rw [run_mfsWrite_inside hinv hpath hn hbuf hoff]
  | getattr path | readdir path | openFile path | read path =>
    obtain ⟨r, hret⟩ := hinv.returns_of_reads hres trivial
    exact hquiet hret

/-- There is no file `/b` to remove. -/
theorem failing_call_b : after 128 (.unlink pathB) oneFile = oneFile := by
  have hres : Resolved (Call.unlink pathB).path := by decide
  refine (failing_call oneFile_reachable hres).2 ?_ (-enoent) ?_ (by decide)
  · rintro n b now ⟨⟨path, text, s, buf, heq, -⟩, -⟩
    injection heq
  · rw [after_unlink.2]
    exact congrArg Reply.status (by decide +kernel)

end Call

/-! ## A disk with one clear block -/

section OneLeft

variable {buf : List UInt8} (hlen : buf.length = 1966080)
include hlen

/-- The image when `/a` has been given 120 blocks of data. -/
theorem write_twoFiles : ∃ d, d = after 128 (.write pathA buf 0 0) twoFiles ∧ Reachable 128 d ∧
    Named d [98] 3 3 ∧ indexAt d 3 = 0 ∧ sizeAt d 3 = 0 ∧ ∃ b, clearBlocks 128 d = {b} := by
  have hbuf : buf ≠ [] := List.ne_nil_of_length_pos (by omega)
  have hreach : Reachable 128 (after 128 (.write pathA buf 0 0) twoFiles) :=
    .call _ twoFiles_reachable (show Resolved pathA by decide)
  have hbefore : (clearBlocks 128 twoFiles).card = 122 := by decide +kernel
  have hindex : indexAt twoFiles 2 = 0 := by decide +kernel
  have hsize : sizeAt twoFiles 2 = 0 := by decide +kernel
  have hindex' : indexAt twoFiles 3 = 0 := by decide +kernel
  have hsize' : sizeAt twoFiles 3 = 0 := by decide +kernel
  have hafter : after 128 (.write pathA buf 0 0) twoFiles = _ := after_write.1
  -- the directory and the record of `/b` stay
  obtain ⟨_, w', _, hguar, hdisk, _⟩ := run_mfsWrite_world buf 0 0 twoFiles_reachable.inv.1
    (by decide) (show pathName pathA = some ⟨[97], by decide⟩ by decide) (by decide) (by decide)
    twoFiles_named.1
  rw [← hafter] at hdisk
  have hrec := hguar.record 3 (by decide) (by decide) (by decide)
  rw [hdisk] at hrec
  refine ⟨_, rfl, hreach, (named_congr ?_).mpr twoFiles_named.2, ?_, ?_, ?_⟩
  · rw [← hdisk]
    exact hguar.dir.rootDir
  · rw [indexAt_congr hrec]
    exact hindex'
  · rw [sizeAt, hrec]
    exact hsize'
  · -- 120 blocks of data and the index block are taken
    have hspace : space 128 2 twoFiles = 16384 * 121 := by
      rw [space, dataBlocks, if_pos hindex, hbefore, hsize]
      rfl
    have hroom : ¬ Full 128 2 twoFiles := by
      rintro (⟨-, hnone⟩ | hzero)
      · rw [hnone, Finset.card_empty] at hbefore
        exact absurd hbefore (by decide)
      · rw [hspace] at hzero
        exact absurd hzero (by decide)
    have htaken := (growFile_fits (N := 128) twoFiles_reachable.inv.1 (by decide)
      twoFiles_named.1.toFileAt.isFile hbuf 0).taken hroom
    have hrun := run_mfsWrite_file (N := 128) twoFiles_reachable.inv.1 (by decide)
      (show FilePath pathA [97] from ⟨rfl, by decide, by decide⟩) twoFiles_named.1 hbuf 0
    rw [hsize] at hrun
    have hend : growFile 128 2 twoFiles buf 0 = _ := hrun.symm
    rw [hend, hspace, hlen, newBlocks, hsize, if_pos hindex, hbefore] at htaken
    rw [hafter]
    refine Finset.card_eq_one.mp ?_
    have hmin : (min 1966080 (16384 * 121) - slack 0 + 16383) / 16384 = 120 := by decide
    rw [hmin] at htaken
    change (clearBlocks 128 (run (mfsWrite (formatSuperblock 128) pathA buf 0 0) twoFiles).2).card +
      120 + 1 = 122 at htaken
    omega

end OneLeft

/-- `/b` gets the last block as its index block, and the write of its first byte fails. -/
theorem failing_write : ¬ ∀ (N : UInt32) (d : Disk) (c : Call) (rc : Int), Reachable N d →
    Resolved c.path → reply N c d = .status rc → rc < 0 → after N c d = d := by
  intro hall
  obtain ⟨d, -, hreach, hn, hib, hsize, b, hclear⟩ :=
    write_twoFiles (List.length_replicate : (List.replicate 1966080 (0 : UInt8)).length = _)
  have hlast : LastBlock 128 d (.write pathB [120] 0 0) 3 b 0 := by
    refine ⟨⟨pathB, [98], 3, [120], ?_, ⟨rfl, by decide, by decide⟩, hn, by decide⟩, hib, hclear⟩
    rw [hsize]
    rfl
  obtain ⟨hreply, hafter⟩ := lastBlock_call hreach.inv.1 hreach.inv.2.2 hlast
  have hsame := hall 128 d (.write pathB [120] 0 0) _ hreach (by decide) hreply (by decide)
  -- the bit of the last block is set now
  have hmem : b ∈ clearBlocks 128 d := by
    rw [hclear]
    exact Finset.mem_singleton_self b
  obtain ⟨hrange, hfree⟩ := mem_clearBlocks.mp hmem
  have hset : bitAt (touch 3 0 (giveIndex 3 d b)) b = true := by
    rw [bitAt, touch_of_ne (by decide) (by decide) (by decide),
      giveIndex_bitmap (by decide) hrange.1, mfsGetBit, mfsSetBit, getBit_setBit, if_pos rfl]
  rw [← hafter, hsame, hfree] at hset
  exact absurd hset Bool.false_ne_true

end OsProjects.Mfs
