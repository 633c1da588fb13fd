import OsProjects.Mfs.Image

/-!
# The root directory — lookups, and entries that come and go

A name is looked up by comparing it with the stored names in slot order. On a
consistent directory this finds the one slot with that name (`DirInv.find_iff`).
`DirInv.insert` and `DirInv.remove` are the two ways a directory changes: a new entry
in a free slot with a fresh inode number, and a slot cleared together with the bit of
its inode.
-/

namespace OsProjects.Mfs

open Bytes

/-- Slot `s` names inode `n` by `text`. -/
structure Named (d : Disk) (text : List UInt8) (s n : Nat) : Prop extends FileAt d s n where
  text_eq : (entryAt d s).text = text

theorem FileAt.isFile {d : Disk} {s n : Nat} (h : FileAt d s n) : IsFile d n := ⟨s, h⟩

/-- A slot holds one inode number. -/
theorem FileAt.unique {d : Disk} {s n m : Nat} (hn : FileAt d s n) (hm : FileAt d s m) : n = m :=
  hn.inodeNo.symm.trans hm.inodeNo

section Lookup

variable {d : Disk} (hdir : DirInv d)
include hdir

/-- What a file's slot holds. -/
theorem DirInv.entry {s n : Nat} (hs : FileAt d s n) :
    ∃ text m, ValidName text ∧ m.toNat = n ∧ 2 ≤ n ∧ n ≤ 256 ∧ entryAt d s = newEntry text m := by
  rcases hdir.slot s hs.two_le hs.lt with hzero | ⟨text, m, hvalid, hlo, hhi, hentry⟩
  · exact absurd (by rw [hzero, zero_used]) hs.used
  · have hm : m.toNat = n := by rw [← hs.inodeNo, hentry, newEntry_inodeNo]
    exact ⟨text, m, hvalid, hm, hm ▸ hlo, hm ▸ hhi, hentry⟩

/-- The two fixed slots hold `.` and `..`, which lead to the root directory. -/
theorem DirInv.fixed_slot {s : Nat} (hs : s < 2) :
    ∃ text, (text = [46] ∨ text = [46, 46]) ∧ entryAt d s = newEntry text 1 := by
  have hcase : s = 0 ∨ s = 1 := by omega
  rcases hcase with rfl | rfl
  · exact ⟨_, Or.inl rfl, hdir.dot⟩
  · exact ⟨_, Or.inr rfl, hdir.dotdot⟩

theorem DirInv.fixed_inodeNo {s : Nat} (hs : s < 2) : (entryAt d s).inodeNo.toNat = 1 := by
  obtain ⟨text, -, hentry⟩ := hdir.fixed_slot hs
  rw [hentry, newEntry_inodeNo]
  rfl

/-- Files have the inodes 2 to 256. -/
theorem DirInv.file_range {n : Nat} (hn : IsFile d n) : 2 ≤ n ∧ n ≤ 256 := by
  obtain ⟨s, hs⟩ := hn
  obtain ⟨_, _, _, _, hlo, hhi, _⟩ := hdir.entry hs
  exact ⟨hlo, hhi⟩

/-- The slot of a file has a name that `mfs_create` accepts. -/
theorem DirInv.valid_text {s n : Nat} (hs : FileAt d s n) : ValidName (entryAt d s).text := by
  obtain ⟨text, m, hvalid, _, _, _, hentry⟩ := hdir.entry hs
  rw [hentry, hvalid.of_text]
  exact hvalid

theorem DirInv.valid_named {text : List UInt8} {s n : Nat} (hn : Named d text s n) :
    ValidName text :=
  hn.text_eq ▸ hdir.valid_text hn.toFileAt

/-- An unused slot is cleared. -/
theorem DirInv.free_slot {s : Nat} (h2 : 2 ≤ s) (h256 : s < 256)
    (hfree : (entryAt d s).used = 0) : entryAt d s = MfsDirEntry.zero := by
  rcases hdir.slot s h2 h256 with hzero | ⟨text, n, _, _, _, hentry⟩
  · exact hzero
  · rw [hentry, newEntry_used] at hfree
    exact absurd hfree (by decide)

/-- A slot matches a name that is not `.` or `..` iff it holds a file of that name. -/
theorem DirInv.matches_iff {name : CString} (h1 : name.val ≠ [46]) (h2 : name.val ≠ [46, 46])
    {s : Nat} (hs : s < 256) :
    dirEntryMatches (d 5) name s = true ↔ ∃ n, Named d name.val s n := by
  rcases Nat.lt_or_ge s 2 with hlo | hlo
  · -- the two fixed slots hold the two excluded names
    have hfixed : dirEntryMatches (d 5) name s ≠ true := by
      obtain ⟨text, rfl | rfl, hentry⟩ := hdir.fixed_slot hlo
      · rw [Ne, dirEntryMatches_newEntry (by decide) (by decide) hentry]
        exact h1
      · rw [Ne, dirEntryMatches_newEntry (by decide) (by decide) hentry]
        exact h2
    refine ⟨fun h => absurd h hfixed, ?_⟩
    rintro ⟨n, hn⟩
    have := hn.two_le
    omega
  · -- any other slot is free or holds a valid name
    rcases hdir.slot s hlo hs with hzero | ⟨text, n, hvalid, _, _, hentry⟩
    · rw [dirEntryMatches_zero hzero]
      refine ⟨fun h => absurd h Bool.false_ne_true, ?_⟩
      rintro ⟨n, hn⟩
      exact absurd (by rw [hzero, zero_used]) hn.used
    · rw [dirEntryMatches_newEntry hvalid.nul_free hvalid.le hentry]
      constructor
      · intro htext
        refine ⟨n.toNat, ⟨hlo, hs, ?_, by rw [hentry, newEntry_inodeNo]⟩, ?_⟩
        · rw [hentry, newEntry_used]
          decide
        · rw [hentry, hvalid.of_text, htext]
      · rintro ⟨m, hm⟩
        rw [← hm.text_eq, hentry, hvalid.of_text]

/-- The directory scan of `find_dir_entry` finds the slot with the name. -/
theorem DirInv.find_iff {name : CString} (h1 : name.val ≠ [46]) (h2 : name.val ≠ [46, 46])
    (s : Nat) :
    (List.range' 0 mfsDirEntryCount).find? (dirEntryMatches (d 5) name) = some s ↔
      ∃ n, Named d name.val s n := by
  rw [List.find?_range'_eq_some]
  constructor
  · -- what is found matches
    rintro ⟨hmatch, hmem, -⟩
    simp only [List.mem_range'_1, mfsDirEntryCount] at hmem
    exact (hdir.matches_iff h1 h2 (by omega)).mp hmatch
  · -- the slot of the file matches
    rintro ⟨n, hn⟩
    have hlt := hn.lt
    refine ⟨(hdir.matches_iff h1 h2 hlt).mpr ⟨n, hn⟩, ?_, ?_⟩
    · simp only [List.mem_range'_1, mfsDirEntryCount]
      omega
    · -- no slot in front of it matches: names are distinct
      intro j _ hj
      rw [Bool.not_eq_true', ← Bool.not_eq_true]
      intro hmatch
      obtain ⟨m, hm⟩ := (hdir.matches_iff h1 h2 (by omega)).mp hmatch
      have := hdir.text_inj j s m n hm.toFileAt hn.toFileAt (hm.text_eq.trans hn.text_eq.symm)
      omega

/-- The scan finds nothing iff no file has the name. -/
theorem DirInv.find_none_iff {name : CString} (h1 : name.val ≠ [46]) (h2 : name.val ≠ [46, 46]) :
    (List.range' 0 mfsDirEntryCount).find? (dirEntryMatches (d 5) name) = none ↔
      ∀ s n, ¬ Named d name.val s n := by
  constructor
  · -- a file with the name would have been found
    intro hnone s n hn
    have hsome := (hdir.find_iff h1 h2 s).mpr ⟨n, hn⟩
    rw [hnone] at hsome
    exact absurd hsome (by simp)
  · -- and what is found is a file with the name
    intro habsent
    cases hfind : (List.range' 0 mfsDirEntryCount).find? (dirEntryMatches (d 5) name) with
    | none => rfl
    | some s =>
      obtain ⟨n, hn⟩ := (hdir.find_iff h1 h2 s).mp hfind
      exact absurd hn (habsent s n)

end Lookup

/-- What `find_dir_entry` returns when the directory block was read. -/
def lookupEntry (entries : Block) (name : CString) : Except Int (MfsDirEntry × Nat) :=
  match (List.range' 0 mfsDirEntryCount).find? (dirEntryMatches entries name) with
  | some i => .ok (dirEntry entries i, i)
  | none => .error (-enoent)

/-- The lookup finds the one file of this name. -/
theorem DirInv.lookup_ok {d : Disk} (hdir : DirInv d) {name : CString} (h1 : name.val ≠ [46])
    (h2 : name.val ≠ [46, 46]) {s n : Nat} (hn : Named d name.val s n) :
    lookupEntry (d 5) name = .ok (entryAt d s, s) := by
  rw [lookupEntry, (hdir.find_iff h1 h2 s).mpr ⟨n, hn⟩]
  rfl

/-- The lookup of a name that no file has. -/
theorem DirInv.lookup_error {d : Disk} (hdir : DirInv d) {name : CString} (h1 : name.val ≠ [46])
    (h2 : name.val ≠ [46, 46]) (habsent : ∀ s n, ¬ Named d name.val s n) :
    lookupEntry (d 5) name = .error (-enoent) := by
  rw [lookupEntry, (hdir.find_none_iff h1 h2).mpr habsent]

/-! ## Changing one slot -/

/-- One slot of the directory is written. -/
theorem entryAt_putRec {d d' : Disk} {s : Nat} {e : MfsDirEntry}
    (hd : d' 5 = putRec mfsDirEntryLayout (d 5) s e) (s' : Nat) :
    entryAt d' s' = if s' = s then e else entryAt d s' := by
  rw [entryAt, hd, dirEntry, getRec_putRec]
  rfl

/-- One bit of the inode bitmap is written. -/
theorem inodeBitAt_setBit {d d' : Disk} {i : Nat} {value : Bool}
    (hd : d' 2 = mfsSetBit (d 2) i value) (j : Nat) :
    inodeBitAt d' j = if i = j then value else inodeBitAt d j := by
  rw [inodeBitAt, hd, mfsGetBit, mfsSetBit, getBit_setBit]
  rfl

/-- A slot whose entry is untouched holds the same file. -/
theorem fileAt_of_entry {d d' : Disk} {s : Nat} (hentry : entryAt d' s = entryAt d s) (n : Nat) :
    FileAt d' s n ↔ FileAt d s n := by
  constructor
  · intro h
    exact ⟨h.two_le, h.lt, hentry ▸ h.used, hentry ▸ h.inodeNo⟩
  · intro h
    exact ⟨h.two_le, h.lt, hentry.symm ▸ h.used, hentry.symm ▸ h.inodeNo⟩

/-- The files after a new entry is written into slot `s`. -/
theorem fileAt_insert {d d' : Disk} {s : Nat} {text : List UInt8} {n : UInt32} (h2 : 2 ≤ s)
    (h256 : s < 256) (hfree : (entryAt d s).used = 0)
    (hd : d' 5 = putRec mfsDirEntryLayout (d 5) s (newEntry text n)) (s' m : Nat) :
    FileAt d' s' m ↔ FileAt d s' m ∨ s' = s ∧ m = n.toNat := by
  have hentry := entryAt_putRec hd
  -- on whether it is the slot that is written
  by_cases hs : s' = s
  · subst hs
    have hnew : entryAt d' s' = newEntry text n := by rw [hentry, if_pos rfl]
    constructor
    · intro h
      exact Or.inr ⟨rfl, by rw [← h.inodeNo, hnew, newEntry_inodeNo]⟩
    · rintro (h | ⟨-, rfl⟩)
      · exact absurd hfree h.used
      · exact ⟨h2, h256, by rw [hnew, newEntry_used]; decide, by rw [hnew, newEntry_inodeNo]⟩
  · have hsame : entryAt d' s' = entryAt d s' := by rw [hentry, if_neg hs]
    rw [fileAt_of_entry hsame]
    exact ⟨Or.inl, fun h => h.resolve_right fun hc => hs hc.1⟩

/-- The files after slot `s` is cleared. -/
theorem fileAt_remove {d d' : Disk} {s : Nat}
    (hd : d' 5 = putRec mfsDirEntryLayout (d 5) s MfsDirEntry.zero) (s' m : Nat) :
    FileAt d' s' m ↔ FileAt d s' m ∧ s' ≠ s := by
  have hentry := entryAt_putRec hd
  -- on whether it is the slot that is cleared
  by_cases hs : s' = s
  · subst hs
    constructor
    · intro h
      exact absurd (by rw [hentry, if_pos rfl, zero_used]) h.used
    · rintro ⟨-, hne⟩
      exact absurd rfl hne
  · have hsame : entryAt d' s' = entryAt d s' := by rw [hentry, if_neg hs]
    rw [fileAt_of_entry hsame]
    exact ⟨fun h => ⟨h, hs⟩, fun h => h.1⟩

/-- A new name with a fresh inode number keeps the directory consistent. -/
theorem DirInv.insert {d d' : Disk} (hdir : DirInv d) {s : Nat} {text : List UInt8} {n : UInt32}
    (h2 : 2 ≤ s) (h256 : s < 256) (hfree : (entryAt d s).used = 0) (hvalid : ValidName text)
    (habsent : ∀ s' m, ¬ Named d text s' m) (hlo : 2 ≤ n.toNat) (hhi : n.toNat ≤ 256)
    (hbit : inodeBitAt d (n.toNat - 1) = false)
    (hd5 : d' 5 = putRec mfsDirEntryLayout (d 5) s (newEntry text n))
    (hd2 : d' 2 = mfsSetBit (d 2) (n.toNat - 1) true) : DirInv d' := by
  have hentry := entryAt_putRec hd5
  have hfile := fileAt_insert h2 h256 hfree hd5
  -- the number is fresh, as its bit is clear
  have hfresh : ∀ s', ¬ FileAt d s' n.toNat := fun s' hs' => by
    have hset := (hdir.inodeBit (n.toNat - 1)).mpr
      (Or.inr ⟨s', by rwa [Nat.sub_add_cancel (by omega)]⟩)
    rw [hbit] at hset
    exact absurd hset Bool.false_ne_true
  have hnew : entryAt d' s = newEntry text n := by rw [hentry, if_pos rfl]
  have hold : ∀ {s' m}, FileAt d s' m → entryAt d' s' = entryAt d s' := fun {s' m} hm => by
    rw [hentry, if_neg]
    rintro rfl
    exact hm.used hfree
  refine ⟨?_, ?_, ?_, ?_, ?_, ?_⟩
  · rw [hentry, if_neg (by omega)]
    exact hdir.dot
  · rw [hentry, if_neg (by omega)]
    exact hdir.dotdot
  · intro s' hs2 hs256
    by_cases hs : s' = s
    · rw [hentry, if_pos hs]
      exact Or.inr ⟨text, n, hvalid, hlo, hhi, rfl⟩
    · rw [hentry, if_neg hs]
      exact hdir.slot s' hs2 hs256
  · -- distinct numbers
    intro s₁ s₂ m hm₁ hm₂
    rcases (hfile s₁ m).mp hm₁ with h₁ | ⟨rfl, rfl⟩
    · rcases (hfile s₂ m).mp hm₂ with h₂ | ⟨rfl, rfl⟩
      · exact hdir.inodeNo_inj s₁ s₂ m h₁ h₂
      · exact absurd h₁ (hfresh s₁)
    · rcases (hfile s₂ n.toNat).mp hm₂ with h₂ | ⟨rfl, -⟩
      · exact absurd h₂ (hfresh s₂)
      · rfl
  · -- distinct names
    intro s₁ s₂ m₁ m₂ hm₁ hm₂ htext
    rcases (hfile s₁ m₁).mp hm₁ with h₁ | ⟨rfl, rfl⟩
    · rcases (hfile s₂ m₂).mp hm₂ with h₂ | ⟨rfl, rfl⟩
      · rw [hold h₁, hold h₂] at htext
        exact hdir.text_inj s₁ s₂ m₁ m₂ h₁ h₂ htext
      · rw [hold h₁, hnew, hvalid.of_text] at htext
        exact absurd ⟨h₁, htext⟩ (habsent s₁ m₁)
    · rcases (hfile s₂ m₂).mp hm₂ with h₂ | ⟨rfl, rfl⟩
      · rw [hold h₂, hnew, hvalid.of_text] at htext
        exact absurd ⟨h₂, htext.symm⟩ (habsent s₂ m₂)
      · rfl
  · -- one more file, one more bit
    intro i
    have hiff : IsFile d' (i + 1) ↔ IsFile d (i + 1) ∨ i + 1 = n.toNat := by
      constructor
      · rintro ⟨s', hs'⟩
        exact ((hfile s' (i + 1)).mp hs').imp (fun h => ⟨s', h⟩) fun h => h.2
      · rintro (⟨s', hs'⟩ | heq)
        · exact ⟨s', (hfile s' (i + 1)).mpr (Or.inl hs')⟩
        · exact ⟨s, (hfile s (i + 1)).mpr (Or.inr ⟨rfl, heq⟩)⟩
    rw [inodeBitAt_setBit hd2, hiff]
    by_cases hi : n.toNat - 1 = i
    · rw [if_pos hi]
      exact ⟨fun _ => Or.inr (Or.inr (by omega)), fun _ => rfl⟩
    · rw [if_neg hi, hdir.inodeBit i]
      exact ⟨fun h => h.imp_right Or.inl, fun h => h.imp_right fun hor =>
        hor.resolve_right (by omega)⟩

/-- Clearing a slot and the bit of its inode keeps the directory consistent. -/
theorem DirInv.remove {d d' : Disk} (hdir : DirInv d) {s n : Nat} (hs : FileAt d s n)
    (hd5 : d' 5 = putRec mfsDirEntryLayout (d 5) s MfsDirEntry.zero)
    (hd2 : d' 2 = mfsSetBit (d 2) (n - 1) false) : DirInv d' := by
  have hentry := entryAt_putRec hd5
  have hfile := fileAt_remove hd5
  have h2 := hs.two_le
  have hrange := hdir.file_range hs.isFile
  refine ⟨?_, ?_, ?_, ?_, ?_, ?_⟩
  · -- the two fixed slots
    rw [hentry, if_neg (by omega)]
    exact hdir.dot
  · rw [hentry, if_neg (by omega)]
    exact hdir.dotdot
  · -- the cleared slot, or an old one
    intro s' hs2 hs256
    by_cases heq : s' = s
    · rw [hentry, if_pos heq]
      exact Or.inl rfl
    · rw [hentry, if_neg heq]
      exact hdir.slot s' hs2 hs256
  · -- what is left of the directory was there before
    intro s₁ s₂ m hm₁ hm₂
    exact hdir.inodeNo_inj s₁ s₂ m ((hfile s₁ m).mp hm₁).1 ((hfile s₂ m).mp hm₂).1
  · -- two names
    intro s₁ s₂ m₁ m₂ hm₁ hm₂ htext
    obtain ⟨h₁, hne₁⟩ := (hfile s₁ m₁).mp hm₁
    obtain ⟨h₂, hne₂⟩ := (hfile s₂ m₂).mp hm₂
    rw [hentry, hentry, if_neg hne₁, if_neg hne₂] at htext
    exact hdir.text_inj s₁ s₂ m₁ m₂ h₁ h₂ htext
  · -- one file less, one bit less
    intro i
    have hiff : IsFile d' (i + 1) ↔ IsFile d (i + 1) ∧ i + 1 ≠ n := by
      constructor
      · rintro ⟨s', hs'⟩
        obtain ⟨h, hne⟩ := (hfile s' (i + 1)).mp hs'
        exact ⟨⟨s', h⟩, fun heq => hne (hdir.inodeNo_inj s' s n (heq ▸ h) hs)⟩
      · rintro ⟨⟨s', hs'⟩, hne⟩
        refine ⟨s', (hfile s' (i + 1)).mpr ⟨hs', ?_⟩⟩
        rintro rfl
        exact hne (hs'.unique hs)
    rw [inodeBitAt_setBit hd2, hiff]
    -- on whether it is the bit that is cleared
    by_cases hi : n - 1 = i
    · rw [if_pos hi]
      refine ⟨fun h => absurd h Bool.false_ne_true, ?_⟩
      rintro (hzero | ⟨-, hne⟩)
      · omega
      · omega
    · rw [if_neg hi, hdir.inodeBit i]
      exact ⟨fun h => h.imp_right fun hf => ⟨hf, by omega⟩, fun h => h.imp_right fun hf => hf.1⟩

end OsProjects.Mfs
