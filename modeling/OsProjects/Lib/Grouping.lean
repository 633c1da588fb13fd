import Mathlib.Data.List.Sort
import Mathlib.Data.List.TakeWhile

/-!
# Groups of equal keys in a sorted list

A list that is sorted by a key falls into stretches of one key each. `Grouping key lt l gs`:
`gs` are these stretches of `l`, each with its key, the keys strictly increasing.

* `Grouping.cons` — one round of the loop that finds them: the first element, and those
  behind it as long as the key stays the same;
* `Grouping.key_mem`, `Grouping.filter_eq` — every key has one group, with all its elements
  in their order;
* `Grouping.unique` — a list has one grouping.
-/

namespace OsProjects

variable {α κ : Type*} {key : α → κ} {lt : κ → κ → Prop}

/-- The stretches of equal keys of `l`. -/
structure Grouping (key : α → κ) (lt : κ → κ → Prop) (l : List α) (gs : List (κ × List α)) :
    Prop where
  flatten : gs.flatMap Prod.snd = l
  nonempty : ∀ g ∈ gs, g.2 ≠ []
  keyed : ∀ g ∈ gs, ∀ a ∈ g.2, key a = g.1
  increasing : gs.Pairwise fun g g' => lt g.1 g'.1

/-- Sorted by the key. -/
def KeySorted (key : α → κ) (lt : κ → κ → Prop) (l : List α) : Prop :=
  l.Pairwise fun a b => lt (key a) (key b) ∨ key a = key b

namespace Grouping

variable {l rest : List α} {gs gs' : List (κ × List α)} {g : κ × List α} {a : α}

theorem nil : Grouping key lt [] [] :=
  ⟨rfl, fun _ hg => absurd hg List.not_mem_nil, fun _ hg => absurd hg List.not_mem_nil, .nil⟩

theorem keys_increasing (h : Grouping key lt l gs) : (gs.map Prod.fst).Pairwise lt :=
  List.pairwise_map.mpr h.increasing

theorem mem_of_mem (h : Grouping key lt l gs) (hg : g ∈ gs) (ha : a ∈ g.2) : a ∈ l := by
  rw [← h.flatten]
  exact List.mem_flatMap.mpr ⟨g, hg, ha⟩

theorem key_mem (h : Grouping key lt l gs) {k : κ} :
    k ∈ gs.map Prod.fst ↔ ∃ a ∈ l, key a = k := by
  rw [List.mem_map]
  constructor
  · rintro ⟨g, hg, rfl⟩
    obtain ⟨a, ha⟩ := List.exists_mem_of_ne_nil _ (h.nonempty g hg)
    exact ⟨a, h.mem_of_mem hg ha, h.keyed g hg a ha⟩
  · rintro ⟨a, ha, rfl⟩
    rw [← h.flatten] at ha
    obtain ⟨g, hg, hmem⟩ := List.mem_flatMap.mp ha
    exact ⟨g, hg, (h.keyed g hg a hmem).symm⟩

section Order

variable [IsStrictOrder κ lt]

/-- Behind the first element and those with its key, every key is larger. -/
theorem lt_of_mem_dropWhile (hsorted : KeySorted key lt (a :: rest)) {same : α → Bool}
    (hsame : ∀ x, same x = true ↔ key a = key x) {b : α} (hb : b ∈ rest.dropWhile same) :
    lt (key a) (key b) := by
  obtain ⟨hfirst, hrest⟩ := List.pairwise_cons.mp hsorted
  have hsub : (rest.dropWhile same).Sublist rest := List.dropWhile_sublist _
  cases hdrop : rest.dropWhile same with
  | nil => exact absurd (hdrop ▸ hb) List.not_mem_nil
  | cons c tail =>
    -- the loop stopped at `c`
    have hc : same c = false := by
      have hhead := List.head?_dropWhile_not same rest
      rw [hdrop] at hhead
      exact hhead
    have hstep : lt (key a) (key c) := by
      refine (hfirst c (hsub.subset (hdrop ▸ List.mem_cons_self))).resolve_right fun heq => ?_
      rw [(hsame c).mpr heq] at hc
      exact absurd hc (by decide)
    rw [hdrop] at hb hsub
    rcases List.mem_cons.mp hb with rfl | hb
    · exact hstep
    · rcases (List.pairwise_cons.mp (hrest.sublist hsub)).1 b hb with hlt | heq
      · exact trans_of lt hstep hlt
      · exact heq ▸ hstep

/-- One round of the loop. -/
theorem cons (hsorted : KeySorted key lt (a :: rest)) {same : α → Bool}
    (hsame : ∀ x, same x = true ↔ key a = key x)
    (hgs : Grouping key lt (rest.dropWhile same) gs) :
    Grouping key lt (a :: rest) ((key a, a :: rest.takeWhile same) :: gs) where
  flatten := by
    rw [List.flatMap_cons, hgs.flatten, List.cons_append, List.takeWhile_append_dropWhile]
  nonempty := by
    intro g hg
    -- the first group, or a later one
    rcases List.mem_cons.mp hg with rfl | hg
    · exact List.cons_ne_nil _ _
    · exact hgs.nonempty g hg
  keyed := by
    intro g hg b hb
    -- the first group, or a later one
    rcases List.mem_cons.mp hg with rfl | hg
    · rcases List.mem_cons.mp hb with rfl | hb
      · rfl
      · exact ((hsame b).mp (List.mem_takeWhile_imp hb)).symm
    · exact hgs.keyed g hg b hb
  increasing := by
    refine List.pairwise_cons.mpr ⟨fun g hg => ?_, hgs.increasing⟩
    -- a later group begins behind those with the first key
    obtain ⟨b, hb⟩ := List.exists_mem_of_ne_nil _ (hgs.nonempty g hg)
    have hlt := lt_of_mem_dropWhile hsorted hsame (hgs.mem_of_mem hg hb)
    rw [hgs.keyed g hg b hb] at hlt
    exact hlt

theorem keys_nodup (h : Grouping key lt l gs) : (gs.map Prod.fst).Nodup :=
  h.keys_increasing.imp fun {x y} (hlt : lt x y) (heq : x = y) => irrefl_of lt y (heq ▸ hlt)

variable [DecidableEq κ]

/-- Nothing of the groups with other keys passes the filter. -/
theorem filter_others {k : κ} (hother : ∀ g ∈ gs, g.1 ≠ k)
    (hkeyed : ∀ g ∈ gs, ∀ a ∈ g.2, key a = g.1) :
    ((gs.flatMap Prod.snd).filter fun a => key a = k) = [] := by
  refine List.filter_eq_nil_iff.mpr fun a ha heq => ?_
  obtain ⟨g, hg, hmem⟩ := List.mem_flatMap.mp ha
  exact hother g hg ((hkeyed g hg a hmem).symm.trans (of_decide_eq_true heq))

/-- A group holds all elements with its key. -/
theorem filter_eq (h : Grouping key lt l gs) (hg : g ∈ gs) :
    (l.filter fun a => key a = g.1) = g.2 := by
  obtain ⟨before, after, rfl⟩ := List.append_of_mem hg
  have hnodup := h.keys_nodup
  rw [List.map_append, List.map_cons, List.nodup_middle, List.nodup_cons, List.mem_append] at hnodup
  -- the groups in front have other keys
  have hbefore : ∀ g' ∈ before, g'.1 ≠ g.1 := fun g' hg' heq =>
    hnodup.1 (Or.inl (List.mem_map.mpr ⟨g', hg', heq⟩))
  -- so have those behind
  have hafter : ∀ g' ∈ after, g'.1 ≠ g.1 := fun g' hg' heq =>
    hnodup.1 (Or.inr (List.mem_map.mpr ⟨g', hg', heq⟩))
  have hself : (g.2.filter fun a => key a = g.1) = g.2 :=
    List.filter_eq_self.mpr fun a ha => decide_eq_true (h.keyed g hg a ha)
  rw [← h.flatten, List.flatMap_append, List.flatMap_cons, List.filter_append,
    List.filter_append, hself,
    filter_others hbefore fun g' hg' => h.keyed g' (List.mem_append_left _ hg'),
    filter_others hafter fun g' hg' =>
      h.keyed g' (List.mem_append_right _ (List.mem_cons_of_mem _ hg')),
    List.nil_append, List.append_nil]

/-- The groups from their keys. -/
theorem eq_map_filter (h : Grouping key lt l gs) :
    gs = (gs.map Prod.fst).map fun k => (k, l.filter fun a => key a = k) := by
  rw [List.map_map]
  conv_lhs => rw [← List.map_id gs]
  exact List.map_congr_left fun g hg => Prod.ext rfl (h.filter_eq hg).symm

theorem unique (h : Grouping key lt l gs) (h' : Grouping key lt l gs') : gs = gs' := by
  have hperm : (gs.map Prod.fst).Perm (gs'.map Prod.fst) :=
    (List.perm_ext_iff_of_nodup h.keys_nodup h'.keys_nodup).mpr fun k => by
      rw [h.key_mem, h'.key_mem]
  have hkeys : gs.map Prod.fst = gs'.map Prod.fst := by
    refine hperm.eq_of_pairwise ?_ h.keys_increasing h'.keys_increasing
    exact fun _ _ _ _ hab hba => absurd hba (asymm_of lt hab)
  rw [h.eq_map_filter, h'.eq_map_filter, hkeys]

end Order

end Grouping

end OsProjects
