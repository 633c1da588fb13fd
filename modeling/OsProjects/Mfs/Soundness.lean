import OsProjects.Mfs.Refinement

/-!
# Allocation soundness — what is marked used is used once

The invariant of the image between two calls, spelled out: every block marked used in
the block bitmap has exactly one place that refers to it (`Place`), every inode marked
used has one directory slot, and the sizes, block counts and index blocks of the files
agree. With no file left, the bitmaps and the directory are again those of the format
(`reachable_soundness`).
-/

namespace OsProjects.Mfs

open Bytes Prog

/-- A place in the files that can refer to a block: the index block of the file in a
slot, or an entry of that block. -/
inductive Place
  | index (slot : Nat)
  | entry (slot k : Nat)
  deriving DecidableEq

/-- The place refers to block `b`. -/
def Place.refers (d : Disk) (b : Nat) : Place → Prop
  | .index s => ∃ n, FileAt d s n ∧ indexAt d n = b
  | .entry s k => ∃ n, FileAt d s n ∧ indexAt d n ≠ 0 ∧ k < countAt d n ∧
      idxAt d (indexAt d n) k = b

/-- Allocation is sound on a disk of `N` blocks. -/
structure AllocationSound (N : Nat) (d : Disk) : Prop where
  block : ∀ b, 6 ≤ b → b < N →
    (bitAt d b = true ↔ ∃ place : Place, place.refers d b) ∧
    ∀ place place' : Place, place.refers d b → place'.refers d b → place = place'
  metadata : ∀ b < 6, bitAt d b = true
  file : ∀ s n, FileAt d s n → countAt d n = (sizeAt d n + 16383) / 16384 ∧
    (0 < sizeAt d n → indexAt d n ≠ 0) ∧
    (indexAt d n ≠ 0 → ∀ k < 4096, idxAt d (indexAt d n) k ≠ 0 ↔ k < countAt d n)
  inode : ∀ n, 1 ≤ n → n ≤ 256 →
    (inodeBitAt d (n - 1) = true ↔ n = 1 ∨ ∃! s, FileAt d s n)
  names : ∀ s < 256, ∀ s' < 256, (entryAt d s).used ≠ 0 → (entryAt d s').used ≠ 0 →
    (entryAt d s).text = (entryAt d s').text → s = s'

section Sound

variable {N : Nat} {d : Disk}

/-- A file refers to the blocks its places refer to. -/
theorem FsInv.ref_iff_place (h : FsInv N d) {s n b : Nat} (hs : FileAt d s n) (hb : b ≠ 0) :
    Ref d n b ↔ (Place.index s).refers d b ∨ ∃ k, (Place.entry s k).refers d b := by
  have hok := h.file n hs.isFile
  constructor
  · intro href
    rcases ((hok.shape href.1).ref_iff rfl (fun _ _ => rfl) b).mp href with rfl | ⟨k, hk, rfl⟩
    · exact Or.inl ⟨n, hs, rfl⟩
    · exact Or.inr ⟨k, n, hs, href.1, hk, rfl⟩
  · rintro (⟨m, hm, rfl⟩ | ⟨k, m, hm, hib, hk, rfl⟩)
    · have hmn : n = m := hs.unique hm
      subst hmn
      exact ⟨hb, Or.inl rfl⟩
    · have hmn : n = m := hs.unique hm
      subst hmn
      exact ((hok.shape hib).ref_iff rfl (fun _ _ => rfl) _).mpr (Or.inr ⟨k, hk, rfl⟩)

/-- The slot of a place. -/
def Place.slot : Place → Nat
  | .index s => s
  | .entry s _ => s

theorem Place.refers.file {b : Nat} {place : Place} (h : place.refers d b) :
    ∃ n, FileAt d place.slot n := by
  cases place with
  | index s => exact h.imp fun n hn => hn.1
  | entry s k => exact h.imp fun n hn => hn.1

theorem FsInv.ref_of_place (h : FsInv N d) {b n : Nat} {place : Place} (hplace : place.refers d b)
    (hn : FileAt d place.slot n) (hb : b ≠ 0) : Ref d n b := by
  rw [h.ref_iff_place hn hb]
  cases place with
  | index s => exact Or.inl hplace
  | entry s k => exact Or.inr ⟨k, hplace⟩

/-- Two places that refer to one block are the same place. -/
theorem FsInv.place_unique (h : FsInv N d) {b : Nat} (hb : b ≠ 0) {place place' : Place}
    (hplace : place.refers d b) (hplace' : place'.refers d b) : place = place' := by
  obtain ⟨n, hn⟩ := hplace.file
  obtain ⟨n', hn'⟩ := hplace'.file
  -- a block has one holder, so both places belong to one file
  have hsame : n = n' := h.blocks.disjoint n n' b ⟨hn.isFile, h.ref_of_place hplace hn hb⟩
    ⟨hn'.isFile, h.ref_of_place hplace' hn' hb⟩
  subst hsame
  have hslot : place.slot = place'.slot := h.dir.inodeNo_inj _ _ n hn hn'
  -- one file: its index block is no data block, and its data blocks are distinct
  have hok := h.file n hn.isFile
  cases place with
  | index s =>
    obtain ⟨m, hm, hindex⟩ := hplace
    have hmn : n = m := hn.unique hm
    subst hmn
    cases place' with
    | index s' => exact congrArg Place.index hslot
    | entry s' k' =>
      obtain ⟨m', hm', hib, hk', hentry⟩ := hplace'
      have hmn : n = m' := hn'.unique hm'
      subst hmn
      exact absurd (hentry.trans hindex.symm) ((hok.shape hib).off_index k' hk')
  | entry s k =>
    obtain ⟨m, hm, hib, hk, hentry⟩ := hplace
    have hmn : n = m := hn.unique hm
    subst hmn
    cases place' with
    | index s' =>
      obtain ⟨m', hm', hindex⟩ := hplace'
      have hmn : n = m' := hn'.unique hm'
      subst hmn
      exact absurd (hentry.trans hindex.symm) ((hok.shape hib).off_index k hk)
    | entry s' k' =>
      obtain ⟨m', hm', _, hk', hentry'⟩ := hplace'
      have hmn : n = m' := hn'.unique hm'
      subst hmn
      have hkk := (hok.shape hib).inj k hk k' hk' (hentry.trans hentry'.symm)
      have hss : s = s' := hslot
      rw [hss, hkk]

/-- Used slots have names of their own, also next to `.` and `..`. -/
theorem DirInv.names_distinct (h : DirInv d) {s s' : Nat} (hs : s < 256) (hs' : s' < 256)
    (hused : (entryAt d s).used ≠ 0) (hused' : (entryAt d s').used ≠ 0)
    (htext : (entryAt d s).text = (entryAt d s').text) : s = s' := by
  have hdot : (entryAt d 0).text = [46] := by
    rw [h.dot, newEntry_text (by decide) (by decide)]
  have hdotdot : (entryAt d 1).text = [46, 46] := by
    rw [h.dotdot, newEntry_text (by decide) (by decide)]
  -- the name of a file is neither `.` nor `..`
  have hfixed : ∀ {i j}, i < 2 → 2 ≤ j → j < 256 → (entryAt d j).used ≠ 0 →
      (entryAt d i).text ≠ (entryAt d j).text := fun {i j} hi hj hj256 hju heq => by
    have hvalid := h.valid_text ⟨hj, hj256, hju, rfl⟩
    have hcase : i = 0 ∨ i = 1 := by omega
    rcases hcase with rfl | rfl
    · exact hvalid.ne_dot (heq.symm.trans hdot)
    · exact hvalid.ne_dotdot (heq.symm.trans hdotdot)
  rcases Nat.lt_or_ge s 2 with hlo | hlo
  · rcases Nat.lt_or_ge s' 2 with hlo' | hlo'
    -- two of the fixed slots
    · have hcase : s = s' ∨ s = 0 ∧ s' = 1 ∨ s = 1 ∧ s' = 0 := by omega
      rcases hcase with heq | ⟨rfl, rfl⟩ | ⟨rfl, rfl⟩
      · exact heq
      · rw [hdot, hdotdot] at htext
        exact absurd htext (by decide)
      · rw [hdot, hdotdot] at htext
        exact absurd htext (by decide)
    · exact absurd htext (hfixed hlo hlo' hs' hused')
  · rcases Nat.lt_or_ge s' 2 with hlo' | hlo'
    · exact absurd htext.symm (hfixed hlo' hlo hs hused)
    -- two files
    · exact h.text_inj s s' _ _ ⟨hlo, hs, hused, rfl⟩ ⟨hlo', hs', hused', rfl⟩ htext

theorem FsInv.allocationSound (h : FsInv N d) : AllocationSound N d where
  block := fun b h6 _ => by
    refine ⟨?_, fun place place' => h.place_unique (by omega)⟩
    rw [h.blocks.used b]
    constructor
    -- used, and not a metadata block: some file refers to it, from some place
    · rintro (hlt | ⟨n, ⟨s, hs⟩, href⟩)
      · omega
      · rcases (h.ref_iff_place hs (by omega)).mp href with hplace | ⟨k, hplace⟩
        · exact ⟨_, hplace⟩
        · exact ⟨_, hplace⟩
    · rintro ⟨place, hplace⟩
      obtain ⟨n, hn⟩ := hplace.file
      exact Or.inr ⟨n, hn.isFile, h.ref_of_place hplace hn (by omega)⟩
  metadata := fun b hb => (h.blocks.used b).mpr (Or.inl hb)
  file := fun s n hs => by
    have hok := h.file n hs.isFile
    by_cases hib : indexAt d n = 0
    · obtain ⟨hsize, hcount⟩ := hok.unindexed hib
      exact ⟨by omega, fun hpos => by omega, fun hne => absurd hib hne⟩
    · have hshape := hok.shape hib
      exact ⟨hshape.count_eq, fun _ => hib, fun _ => hshape.entry⟩
  inode := fun n h1 _ => by
    rw [h.dir.inodeBit (n - 1), Nat.sub_add_cancel h1]
    refine or_congr (by omega) ?_
    constructor
    · rintro ⟨s, hs⟩
      exact ⟨s, hs, fun s' hs' => h.dir.inodeNo_inj s' s n hs' hs⟩
    · rintro ⟨s, hs, -⟩
      exact ⟨s, hs⟩
  names := fun s hs s' hs' => h.dir.names_distinct hs hs'

/-- With no file left, the bitmaps and the directory are those of the format. -/
theorem FsInv.formatted (h : FsInv N d) (hempty : ∀ n, ¬ IsFile d n) :
    d 1 = formatBitmap ∧ d 2 = formatInodeBitmap ∧ ∀ i < 16384, d 5 i = formatRootDir i := by
  refine ⟨?_, ?_, fun i hi => ?_⟩
  -- bit by bit, and the directory slot by slot
  · funext i
    refine eq_of_getBit fun b _ => Bool.eq_iff_iff.mpr ?_
    show bitAt d b = true ↔ mfsGetBit formatBitmap b = true
    rw [h.blocks.used b, getBit_formatBitmap]
    exact ⟨fun hor => hor.resolve_right fun ⟨n, hn⟩ => hempty n hn.1, Or.inl⟩
  · funext i
    refine eq_of_getBit fun b _ => Bool.eq_iff_iff.mpr ?_
    show inodeBitAt d b = true ↔ mfsGetBit formatInodeBitmap b = true
    rw [h.dir.inodeBit b, getBit_formatInodeBitmap]
    exact ⟨fun hor => hor.resolve_right (hempty _), Or.inl⟩
  · refine eq_of_getRec mfsDirEntryLayout 256 (fun s hs => ?_) hi
    show entryAt d s = dirEntry formatRootDir s
    rw [formatRootDir_slot]
    rcases Nat.lt_or_ge s 2 with hlo | hlo
    · have hcase : s = 0 ∨ s = 1 := by omega
      rcases hcase with rfl | rfl
      · exact h.dir.dot
      · exact h.dir.dotdot
    · rw [if_neg (by omega), if_neg (by omega)]
      exact h.dir.free_slot hlo hs (by
        by_contra hused
        exact hempty _ ⟨s, hlo, hs, hused, rfl⟩)

end Sound

/-- **Allocation is sound on every image between two calls**, and once every file has
been unlinked nothing has leaked. -/
theorem reachable_soundness {N : UInt32} {d : Disk} (h : Reachable N d) :
    AllocationSound N.toNat d ∧
    ((∀ n, ¬ IsFile d n) → ∀ (now : UInt64) (old : Disk), ∀ i < 16384,
      d 1 i = format N now old 1 i ∧ d 2 i = format N now old 2 i ∧
        d 5 i = format N now old 5 i) := by
  obtain ⟨hinv, h128, h4096⟩ := h.inv
  refine ⟨hinv.allocationSound, ?_⟩
  intro hempty now old i hi
  obtain ⟨hbitmap, hinodes, hdir⟩ := hinv.formatted hempty
  rw [format, run_makeMfs h128 h4096]
  exact ⟨congrFun hbitmap i, congrFun hinodes i, hdir i hi⟩

theorem reachable_soundness_demo : AllocationSound (128 : UInt32).toNat oneFile :=
  (reachable_soundness oneFile_reachable).1

end OsProjects.Mfs
