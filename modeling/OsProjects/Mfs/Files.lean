import Mathlib.Order.Interval.Finset.Nat
import OsProjects.Mfs.Directory
import OsProjects.Mfs.Spec

/-!
# The file map — what an image means to a client

A client sees names, permissions and bytes. `files d` is that view of the image `d`:
the finite map from the names in the root directory to their files. The results on
the handlers that change an image are equations about it, and `DirInv.free_slot_iff` says in
its terms when the directory has no slot left.
-/

namespace OsProjects.Mfs

open Bytes

/-- The file with inode `n`. -/
def fileOf (d : Disk) (n : Nat) : File := ⟨(inodeAt d n).mode &&& 0o777, content d n⟩

/-- The slot with the name `text`. -/
def slotOf (d : Disk) (text : List UInt8) : Option Nat :=
  (List.range' 2 254).find? fun s => (entryAt d s).used != 0 && (entryAt d s).text == text

/-- The files of an image. -/
def files (d : Disk) : FileMap := fun text =>
  (slotOf d text).map fun s => fileOf d (entryAt d s).inodeNo.toNat

section Lookup

variable {d : Disk}

theorem named_of_slotOf {text : List UInt8} {s : Nat} (h : slotOf d text = some s) :
    Named d text s (entryAt d s).inodeNo.toNat := by
  have hmatch := List.find?_some h
  have hmem := List.mem_of_find?_eq_some h
  rw [List.mem_range'_1] at hmem
  rw [Bool.and_eq_true, bne_iff_ne, beq_iff_eq] at hmatch
  exact ⟨⟨hmem.1, by omega, hmatch.1, rfl⟩, hmatch.2⟩

theorem files_eq_none_iff {text : List UInt8} :
    files d text = none ↔ ∀ s n, ¬ Named d text s n := by
  rw [files, Option.map_eq_none_iff]
  constructor
  · -- a slot of that name would have been found
    intro hnone s n hn
    have hclear := List.find?_eq_none.mp hnone s (by
      have := hn.two_le
      have := hn.lt
      rw [List.mem_range'_1]
      omega)
    rw [Bool.and_eq_true, bne_iff_ne, beq_iff_eq] at hclear
    exact hclear ⟨hn.used, hn.text_eq⟩
  · -- a slot that is found has the name
    intro habsent
    cases hslot : slotOf d text with
    | none => rfl
    | some s => exact absurd (named_of_slotOf hslot) (habsent s _)

/-- A name leads to the file of its slot. -/
theorem DirInv.files_eq (hdir : DirInv d) {text : List UInt8} {s n : Nat}
    (hn : Named d text s n) : files d text = some (fileOf d n) := by
  cases hslot : slotOf d text with
  | none =>
    have hnone : files d text = none := by rw [files, hslot, Option.map_none]
    exact absurd hn (files_eq_none_iff.mp hnone s n)
  | some s' =>
    -- the search may stop at another slot first, but names are unique
    have hs' := named_of_slotOf hslot
    have heq : s' = s :=
      hdir.text_inj s' s _ n hs'.toFileAt hn.toFileAt (hs'.text_eq.trans hn.text_eq.symm)
    subst heq
    rw [files, hslot, Option.map_some, hn.inodeNo]

theorem DirInv.files_eq_some_iff (hdir : DirInv d) {text : List UInt8} {f : File} :
    files d text = some f ↔ ∃ s n, Named d text s n ∧ f = fileOf d n := by
  constructor
  · intro h
    rw [files, Option.map_eq_some_iff] at h
    obtain ⟨s, hslot, rfl⟩ := h
    exact ⟨s, _, named_of_slotOf hslot, rfl⟩
  · rintro ⟨s, n, hn, rfl⟩
    exact hdir.files_eq hn

theorem mem_names_iff {text : List UInt8} :
    text ∈ (files d).names ↔ ∃ s n, Named d text s n := by
  rw [FileMap.names, Set.mem_ofPred_eq, Ne, files_eq_none_iff]
  push Not
  rfl

theorem DirInv.names_valid (hdir : DirInv d) {text : List UInt8} (h : text ∈ (files d).names) :
    ValidName text := by
  obtain ⟨s, n, hn⟩ := mem_names_iff.mp h
  exact hdir.valid_named hn

/-! ## Counting names -/

/-- The slots that hold a file. -/
def usedSlots (d : Disk) : Finset Nat :=
  (Finset.Ico 2 256).filter fun s => (entryAt d s).used ≠ 0

theorem mem_usedSlots {s : Nat} :
    s ∈ usedSlots d ↔ (2 ≤ s ∧ s < 256) ∧ (entryAt d s).used ≠ 0 := by
  rw [usedSlots, Finset.mem_filter, Finset.mem_Ico]

theorem fileAt_of_mem {s : Nat} (h : s ∈ usedSlots d) :
    FileAt d s (entryAt d s).inodeNo.toNat := by
  obtain ⟨⟨h2, h256⟩, hused⟩ := mem_usedSlots.mp h
  exact ⟨h2, h256, hused, rfl⟩

theorem names_eq_image : (files d).names = (fun s => (entryAt d s).text) '' usedSlots d := by
  ext text
  rw [mem_names_iff, Set.mem_image]
  constructor
  · rintro ⟨s, n, hn⟩
    exact ⟨s, mem_usedSlots.mpr ⟨⟨hn.two_le, hn.lt⟩, hn.used⟩, hn.text_eq⟩
  · rintro ⟨s, hs, htext⟩
    exact ⟨s, _, fileAt_of_mem hs, htext⟩

/-- There are as many names as slots in use. -/
theorem DirInv.names_encard (hdir : DirInv d) :
    (files d).names.encard = (usedSlots d).card := by
  rw [names_eq_image, Set.InjOn.encard_image, Set.encard_coe_eq_coe_finsetCard]
  intro s hs s' hs' htext
  exact hdir.text_inj s s' _ _ (fileAt_of_mem hs) (fileAt_of_mem hs') htext

/-- The directory has a free slot iff there are fewer than 254 names. -/
theorem DirInv.free_slot_iff (hdir : DirInv d) :
    (∃ s, 2 ≤ s ∧ s < 256 ∧ (entryAt d s).used = 0) ↔ (files d).names.encard < 254 := by
  have hcard : (Finset.Ico 2 256).card = 254 := by rw [Nat.card_Ico]
  have hsub : usedSlots d ⊆ Finset.Ico 2 256 := Finset.filter_subset _ _
  rw [hdir.names_encard, Nat.cast_lt_ofNat]
  constructor
  · rintro ⟨s, h2, h256, hfree⟩
    -- a free slot is missing from the slots in use
    have hstrict : usedSlots d ⊂ Finset.Ico 2 256 := by
      refine (Finset.ssubset_iff_of_subset hsub).mpr ⟨s, Finset.mem_Ico.mpr ⟨h2, h256⟩, ?_⟩
      intro hs
      exact (mem_usedSlots.mp hs).2 hfree
    exact hcard ▸ Finset.card_lt_card hstrict
  · intro hlt
    -- with every slot in use there would be 254 names
    by_contra hnone
    have hall : Finset.Ico 2 256 ⊆ usedSlots d := fun s hs => by
      obtain ⟨h2, h256⟩ := Finset.mem_Ico.mp hs
      exact mem_usedSlots.mpr ⟨⟨h2, h256⟩, fun hfree => hnone ⟨s, h2, h256, hfree⟩⟩
    have := Finset.card_le_card hall
    omega

end Lookup

/-- A file whose record and blocks are untouched is the same file. -/
theorem fileOf_congr {d d' : Disk} {n : Nat} (hok : FileOk d n)
    (hrec : inodeAt d' n = inodeAt d n) (hblk : ∀ b, Ref d n b → d' b = d b) :
    fileOf d' n = fileOf d n := by
  rw [fileOf, fileOf, hrec, content_congr hok hrec hblk]

/-! ## Paths -/

theorem filePath_of_name {path name : CString} (hpath : pathName path = some name)
    (hne : name.val ≠ []) : FilePath path name.val :=
  ⟨(pathName_some hpath).1, hne, (pathName_some hpath).2⟩

/-- `path_name` rejects exactly the paths that are neither `/` nor a name behind it. -/
theorem pathName_none {path : CString} (hpath : pathName path = none) :
    path.val ≠ [47] ∧ ∀ text, ¬ FilePath path text := by
  unfold pathName at hpath
  by_cases hroot : path.val = [47]
  · rw [if_pos hroot] at hpath
    exact absurd hpath (by simp)
  · rw [if_neg hroot] at hpath
    refine ⟨hroot, ?_⟩
    intro text h
    have hslash : ¬ (path.val.head? ≠ some 47 ∨ 47 ∈ path.val.tail) := by
      rw [h.split, List.head?_cons, List.tail_cons]
      exact fun hor => hor.elim (fun hne => hne rfl) h.slash_free
    rw [if_neg hslash] at hpath
    exact absurd hpath (by simp)

theorem FilePath.name {path : CString} {text : List UInt8} (h : FilePath path text) :
    ∃ name, pathName path = some name ∧ name.val = text := by
  cases hpath : pathName path with
  | none => exact absurd h ((pathName_none hpath).2 text)
  | some name =>
    exact ⟨name, rfl, List.tail_eq_of_cons_eq ((pathName_some hpath).1.symm.trans h.split)⟩

/-- A path that leads to a file. -/
theorem exists_named {path : CString} (h : ¬ ∀ text, FilePath path text → files d text = none)
    (hres : Resolved path) :
    ∃ name s n, pathName path = some name ∧ name.val ≠ [46] ∧ name.val ≠ [46, 46] ∧
      FilePath path name.val ∧ Named d name.val s n := by
  push Not at h
  obtain ⟨text, hfile, hthere⟩ := h
  obtain ⟨name, hpath, rfl⟩ := hfile.name
  obtain ⟨s, n, hn⟩ := mem_names_iff.mp hthere
  obtain ⟨h1, h2⟩ := hres.name hpath
  exact ⟨name, s, n, hpath, h1, h2, hfile, hn⟩

/-- What a path leads to. -/
inductive PathCase (d : Disk) (path : CString) : Prop
  | malformed : pathName path = none → path.val ≠ [47] → (∀ text, ¬ FilePath path text) →
      PathCase d path
  | root {name : CString} : pathName path = some name → name.val = [] → path.val = [47] →
      (∀ text, ¬ FilePath path text) → PathCase d path
  | absent {name : CString} : pathName path = some name → name.val ≠ [] →
      FilePath path name.val → files d name.val = none →
      lookupEntry (d 5) name = .error (-enoent) → PathCase d path
  | present {name : CString} {s n : Nat} : pathName path = some name → name.val ≠ [] →
      FilePath path name.val → Named d name.val s n → files d name.val = some (fileOf d n) →
      lookupEntry (d 5) name = .ok (entryAt d s, s) → PathCase d path

theorem DirInv.pathCase {d : Disk} (hdir : DirInv d) {path : CString} (hres : Resolved path) :
    PathCase d path := by
  cases hpath : pathName path with
  | none =>
    obtain ⟨hroot, hnone⟩ := pathName_none hpath
    exact .malformed hpath hroot hnone
  | some name =>
    obtain ⟨h1, h2⟩ := hres.name hpath
    by_cases hne : name.val = []
    -- the empty name: the path is `/`
    · have hroot : path.val = [47] := by rw [(pathName_some hpath).1, hne]
      refine .root hpath hne hroot fun text h => h.nonempty ?_
      exact (List.tail_eq_of_cons_eq (hroot.symm.trans h.split)).symm
    · have hfile := filePath_of_name hpath hne
      by_cases hthere : ∃ s n, Named d name.val s n
      · obtain ⟨s, n, hn⟩ := hthere
        exact .present hpath hne hfile hn (hdir.files_eq hn) (hdir.lookup_ok h1 h2 hn)
      · have habsent : ∀ s n, ¬ Named d name.val s n := fun s n hn => hthere ⟨s, n, hn⟩
        exact .absent hpath hne hfile (files_eq_none_iff.mpr habsent)
          (hdir.lookup_error h1 h2 habsent)

end OsProjects.Mfs
