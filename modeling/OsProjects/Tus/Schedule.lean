import Mathlib.Data.Fintype.EquivFin
import Mathlib.Data.List.Perm.Subperm
import OsProjects.Tus.ReadyQueue

/-!
# Thread library — schedules

`Schedule threads q running` is the scheduler's invariant on the thread table, the queue
as a list and the running thread, if there is one. The library only ever replaces one
block (`Schedule.replace`), adds one or frees one, so there are few moves:

* `Schedule.touch`, `Schedule.park`, `Schedule.retire` — the running thread changes, goes
  to the back of the queue, or ends;
* `Schedule.wake`, `Schedule.cancel` — a queued thread runs, or ends;
* `Schedule.add`, `Schedule.free` — a block for a new thread, and an ended one given back.

The second half is what the table functions of the library find in such a table.
-/

namespace OsProjects.Tus

variable {threads : Slot → Option Tcb} {q : List Int} {running : Option Slot}
variable {c i : Slot} {t : Tcb}

/-- The thread in slot `i` is inside `tus_yield`: its context is the code behind
`getcontext` in the call that has not returned. -/
def InsideYield (i : Slot) (t : Tcb) : Prop :=
  ∃ tid site call, t.context = .inYield i t.serial tid site call ∧ t.unfinished = some call

/-- The thread has not run, and its context is its start. -/
def AtStart (t : Tcb) : Prop := t.ran = false ∧ ∃ tsf targ, t.context = .start tsf targ

/-- A thread that can be switched to. -/
inductive Suspended (i : Slot) (t : Tcb) : Prop
  | inYield (flag : t.resumeFlag = true) (inside : InsideYield i t)
  | atStart (flag : t.resumeFlag = false) (start : AtStart t) (unfinished : t.unfinished = none)

/-- The block in slot `i` of a thread that runs or does not. -/
structure SlotOk (isRunning : Prop) (i : Slot) (t : Tcb) : Prop where
  tid_range : 1 ≤ t.tid ∧ t.tid ≤ TUS_MAXTHREADS
  running_iff : t.state = .running ↔ isRunning
  suspended : t.state = .ready → Suspended i t
  ended : t.state = .ended → t.resumeFlag = false

/-- A thread with id `x` is ready. -/
def Ready (threads : Slot → Option Tcb) (x : Int) : Prop :=
  ∃ i t, threads i = some t ∧ t.state = .ready ∧ t.tid = x

/-- The invariant of the scheduler. -/
structure Schedule (threads : Slot → Option Tcb) (q : List Int) (running : Option Slot) :
    Prop where
  slot : ∀ i t, threads i = some t → SlotOk (running = some i) i t
  tid_inj : ∀ i j t u, threads i = some t → threads j = some u → t.tid = u.tid → i = j
  nodup : q.Nodup
  mem_iff : ∀ x, x ∈ q ↔ Ready threads x

namespace Schedule

theorem queued (h : Schedule threads q running) (hi : threads i = some t)
    (hready : t.state = .ready) : t.tid ∈ q :=
  (h.mem_iff t.tid).mpr ⟨i, t, hi, hready, rfl⟩

theorem not_queued (h : Schedule threads q running) (hi : threads i = some t)
    (hready : t.state ≠ .ready) : t.tid ∉ q := by
  intro hmem
  obtain ⟨j, u, hj, hu, htid⟩ := (h.mem_iff t.tid).mp hmem
  -- the id stands for one thread, and that one is not ready
  have hij : i = j := h.tid_inj i j t u hi hj htid.symm
  subst hij
  have htu : t = u := Option.some.inj (hi.symm.trans hj)
  exact hready (htu ▸ hu)

/-- No queued id is taken for an error. -/
theorem queued_ne_error {x : Int} (h : Schedule threads q running) (hx : x ∈ q) :
    x ≠ TUS_ERROR := by
  obtain ⟨j, u, hj, -, rfl⟩ := (h.mem_iff x).mp hx
  have hrange := (h.slot j u hj).tid_range
  intro herr
  rw [herr] at hrange
  exact absurd hrange.1 (by decide)

theorem running_not_queued (h : Schedule threads q (some c)) (hc : threads c = some t) :
    t.tid ∉ q := by
  have hstate : t.state = .running := (h.slot c t hc).running_iff.mpr rfl
  refine h.not_queued hc ?_
  rw [hstate]
  exact ThreadState.noConfusion

/-- The queue has room for one more while a thread runs. -/
theorem length_lt (h : Schedule threads q (some c)) (hc : threads c = some t) :
    q.length < TUS_MAXTHREADS := by
  have hnodup : (t.tid :: q).Nodup := List.nodup_cons.mpr ⟨h.running_not_queued hc, h.nodup⟩
  -- all of them are ids of threads, so they are among 1, …, 64
  have hsub : t.tid :: q ⊆ (List.range TUS_MAXTHREADS).map fun (k : Nat) => (k : Int) + 1 := by
    intro x hx
    have hrange : 1 ≤ x ∧ x ≤ TUS_MAXTHREADS := by
      rcases List.mem_cons.mp hx with rfl | hx
      · exact (h.slot c t hc).tid_range
      · obtain ⟨j, u, hj, -, rfl⟩ := (h.mem_iff x).mp hx
        exact (h.slot j u hj).tid_range
    refine List.mem_map.mpr ⟨(x - 1).toNat, List.mem_range.mpr ?_, ?_⟩ <;> omega
  have hlen := (hnodup.subperm hsub).length_le
  rw [List.length_map, List.length_range, List.length_cons] at hlen
  exact hlen

/-- One thread, which runs. -/
theorem single (hstate : t.state = .running) (hrange : 1 ≤ t.tid ∧ t.tid ≤ TUS_MAXTHREADS) :
    Schedule (Function.update (fun _ => none) i (some t)) [] (some i) := by
  -- the block in slot `i` is the only one
  have honly : ∀ j u, Function.update (fun _ => none) i (some t) j = some u → j = i ∧ t = u := by
    intro j u hj
    rw [Function.update_apply] at hj
    split_ifs at hj with hji
    exact ⟨hji, Option.some.inj hj⟩
  refine ⟨?_, ?_, List.nodup_nil, fun x => ⟨fun hx => absurd hx List.not_mem_nil, ?_⟩⟩
  · intro j u hj
    obtain ⟨rfl, rfl⟩ := honly j u hj
    exact ⟨hrange, ⟨fun _ => rfl, fun _ => hstate⟩, by simp [hstate], by simp [hstate]⟩
  · exact fun j k u v hj hk _ => (honly j u hj).1.trans (honly k v hk).1.symm
  · rintro ⟨j, u, hj, hu, -⟩
    obtain ⟨rfl, rfl⟩ := honly j u hj
    rw [hstate] at hu
    exact ThreadState.noConfusion hu

/-! ## Moves -/

/-- Which ids are ready after one block has been replaced. -/
theorem ready_replace (h : Schedule threads q running) (hi : threads i = some t)
    {t' : Tcb} (htid : t'.tid = t.tid) (x : Int) :
    Ready (Function.update threads i (some t')) x ↔
      (x = t.tid ∧ t'.state = .ready) ∨ (x ≠ t.tid ∧ x ∈ q) := by
  constructor
  · rintro ⟨j, u, hj, hu, hx⟩
    by_cases hji : j = i
    -- the replaced block itself
    · subst hji
      rw [Function.update_self] at hj
      obtain rfl := Option.some.inj hj
      exact Or.inl ⟨hx.symm.trans htid, hu⟩
    · rw [Function.update_of_ne hji] at hj
      refine Or.inr ⟨fun hxt => hji ?_, (h.mem_iff x).mpr ⟨j, u, hj, hu, hx⟩⟩
      exact h.tid_inj j i u t hj hi (hx.trans hxt)
  · rintro (⟨hx, hready⟩ | ⟨hx, hmem⟩)
    · exact ⟨i, t', Function.update_self .., hready, htid.trans hx.symm⟩
    · obtain ⟨j, u, hj, hu, rfl⟩ := (h.mem_iff x).mp hmem
      have hji : j ≠ i := by
        intro hji
        subst hji
        exact hx (congrArg Tcb.tid (Option.some.inj (hj.symm.trans hi)))
      exact ⟨j, u, (Function.update_of_ne hji ..).trans hj, hu, rfl⟩

/-- One block is replaced, and the queue and the running thread follow. -/
theorem replace {q' : List Int} {running' : Option Slot} (h : Schedule threads q running)
    (hi : threads i = some t) (t' : Tcb) (htid : t'.tid = t.tid)
    (hok : SlotOk (running' = some i) i t')
    (hothers : ∀ j, j ≠ i → (running' = some j ↔ running = some j)) (hnodup : q'.Nodup)
    (hmem : ∀ x, x ∈ q' ↔ (x = t.tid ∧ t'.state = .ready) ∨ (x ≠ t.tid ∧ x ∈ q)) :
    Schedule (Function.update threads i (some t')) q' running' where
  slot := by
    intro j u hj
    by_cases hji : j = i
    · subst hji
      rw [Function.update_self] at hj
      obtain rfl := Option.some.inj hj
      exact hok
    · rw [Function.update_of_ne hji] at hj
      obtain ⟨hrange, hrunning, hsuspended, hended⟩ := h.slot j u hj
      exact ⟨hrange, hrunning.trans (hothers j hji).symm, hsuspended, hended⟩
  tid_inj := by
    -- the ids in the slots are the ones from before
    have hold : ∀ j u, Function.update threads i (some t') j = some u →
        ∃ v, threads j = some v ∧ u.tid = v.tid := by
      intro j u hj
      by_cases hji : j = i
      · subst hji
        rw [Function.update_self] at hj
        obtain rfl := Option.some.inj hj
        exact ⟨t, hi, htid⟩
      · rw [Function.update_of_ne hji] at hj
        exact ⟨u, hj, rfl⟩
    intro j k u v hj hk huv
    obtain ⟨u', hj', hu⟩ := hold j u hj
    obtain ⟨v', hk', hv⟩ := hold k v hk
    exact h.tid_inj j k u' v' hj' hk' (by rw [← hu, huv, hv])
  nodup := hnodup
  mem_iff := by
    intro x
    rw [hmem, h.ready_replace hi htid]

/-- The queue stays when the running thread does not become ready. -/
theorem mem_unchanged (h : Schedule threads q (some c)) (hc : threads c = some t) {t' : Tcb}
    (hstate : t'.state ≠ .ready) (x : Int) :
    x ∈ q ↔ (x = t.tid ∧ t'.state = .ready) ∨ (x ≠ t.tid ∧ x ∈ q) := by
  constructor
  · intro hx
    exact Or.inr ⟨fun hxt => h.running_not_queued hc (hxt ▸ hx), hx⟩
  · rintro (⟨-, h'⟩ | ⟨-, hx⟩)
    · exact absurd h' hstate
    · exact hx

/-- What is queued once one id has been taken out. -/
theorem mem_erase (h : Schedule threads q running) {t' : Tcb} (hstate : t'.state ≠ .ready)
    (tid x : Int) :
    x ∈ q.erase tid ↔ (x = tid ∧ t'.state = .ready) ∨ (x ≠ tid ∧ x ∈ q) := by
  rw [h.nodup.mem_erase_iff]
  constructor
  · exact Or.inr
  · rintro (⟨-, h'⟩ | hx)
    · exact absurd h' hstate
    · exact hx

/-- The running thread changes without giving up the processor. -/
theorem touch (h : Schedule threads q (some c)) (hc : threads c = some t) (t' : Tcb)
    (htid : t'.tid = t.tid) (hstate : t'.state = .running) :
    Schedule (Function.update threads c (some t')) q (some c) := by
  have hok := h.slot c t hc
  refine h.replace hc t' htid ?_ (fun _ _ => Iff.rfl) h.nodup
    (h.mem_unchanged hc (by simp [hstate]))
  exact ⟨htid ▸ hok.tid_range, ⟨fun _ => rfl, fun _ => hstate⟩, by simp [hstate],
    by simp [hstate]⟩

/-- The running thread goes to the back of the queue. -/
theorem park (h : Schedule threads q (some c)) (hc : threads c = some t) (t' : Tcb)
    (htid : t'.tid = t.tid) (hstate : t'.state = .ready) (hsuspended : Suspended c t') :
    Schedule (Function.update threads c (some t')) (q ++ [t.tid]) none := by
  have hok := h.slot c t hc
  have hnot := h.running_not_queued hc
  refine h.replace hc t' htid ?_ ?_ (List.nodup_append_comm.mp ?_) fun x => ?_
  · exact ⟨htid ▸ hok.tid_range, by simp [hstate], fun _ => hsuspended, by simp [hstate]⟩
  · exact fun j hj => by simp [Ne.symm hj]
  · exact List.nodup_cons.mpr ⟨hnot, h.nodup⟩
  · rw [List.mem_append, List.mem_singleton]
    constructor
    · rintro (hx | hx)
      · exact Or.inr ⟨fun hxt => hnot (hxt ▸ hx), hx⟩
      · exact Or.inl ⟨hx, hstate⟩
    · rintro (⟨hx, -⟩ | ⟨-, hx⟩)
      · exact Or.inr hx
      · exact Or.inl hx

/-- The running thread ends. -/
theorem retire (h : Schedule threads q (some c)) (hc : threads c = some t) (t' : Tcb)
    (htid : t'.tid = t.tid) (hstate : t'.state = .ended) (hflag : t'.resumeFlag = false) :
    Schedule (Function.update threads c (some t')) q none := by
  have hok := h.slot c t hc
  refine h.replace hc t' htid ?_ ?_ h.nodup (h.mem_unchanged hc (by simp [hstate]))
  · exact ⟨htid ▸ hok.tid_range, by simp [hstate], by simp [hstate], fun _ => hflag⟩
  · exact fun j hj => by simp [Ne.symm hj]

/-- A ready thread changes without leaving the queue. -/
theorem keep (h : Schedule threads q running) (hi : threads i = some t) (t' : Tcb)
    (htid : t'.tid = t.tid) (hready : t.state = .ready) (hstate : t'.state = .ready)
    (hsuspended : Suspended i t') :
    Schedule (Function.update threads i (some t')) q running := by
  have hok := h.slot i t hi
  have hmem := h.queued hi hready
  refine h.replace hi t' htid ?_ (fun _ _ => Iff.rfl) h.nodup fun x => ?_
  · refine ⟨htid ▸ hok.tid_range, ?_, fun _ => hsuspended, by simp [hstate]⟩
    rw [hstate, ← hok.running_iff, hready]
  · constructor
    · intro hx
      -- it stays in the queue, at its place
      by_cases hxt : x = t.tid
      · exact Or.inl ⟨hxt, hstate⟩
      · exact Or.inr ⟨hxt, hx⟩
    · rintro (⟨rfl, -⟩ | ⟨-, hx⟩)
      · exact hmem
      · exact hx

/-- A queued thread gets the processor. -/
theorem wake (h : Schedule threads q none) (hi : threads i = some t) (t' : Tcb)
    (htid : t'.tid = t.tid) (hstate : t'.state = .running) :
    Schedule (Function.update threads i (some t')) (q.erase t.tid) (some i) := by
  refine h.replace hi t' htid ?_ ?_ (h.nodup.erase _) (h.mem_erase (by simp [hstate]) t.tid)
  · exact ⟨htid ▸ (h.slot i t hi).tid_range, by simp [hstate], by simp [hstate], by simp [hstate]⟩
  · exact fun j hj => by simp [Ne.symm hj]

/-- A queued thread ends. -/
theorem cancel (h : Schedule threads q running) (hi : threads i = some t) (t' : Tcb)
    (htid : t'.tid = t.tid) (hready : t.state = .ready) (hstate : t'.state = .ended)
    (hflag : t'.resumeFlag = false) :
    Schedule (Function.update threads i (some t')) (q.erase t.tid) running := by
  have hok := h.slot i t hi
  refine h.replace hi t' htid ?_ (fun _ _ => Iff.rfl) (h.nodup.erase _)
    (h.mem_erase (by simp [hstate]) t.tid)
  refine ⟨htid ▸ hok.tid_range, ?_, by simp [hstate], fun _ => hflag⟩
  rw [← hok.running_iff, hstate, hready]
  simp

/-- A new thread, at the back of the queue. -/
theorem add (h : Schedule threads q running) (hi : threads i = none)
    (hfresh : ∀ j u, threads j = some u → u.tid ≠ t.tid)
    (hrange : 1 ≤ t.tid ∧ t.tid ≤ TUS_MAXTHREADS) (hrunning : running ≠ some i)
    (hstate : t.state = .ready) (hsuspended : Suspended i t) :
    Schedule (Function.update threads i (some t)) (q ++ [t.tid]) running where
  slot := by
    intro j u hj
    by_cases hji : j = i
    · subst hji
      rw [Function.update_self] at hj
      obtain rfl := Option.some.inj hj
      exact ⟨hrange, by simp [hstate, hrunning], fun _ => hsuspended, by simp [hstate]⟩
    · rw [Function.update_of_ne hji] at hj
      exact h.slot j u hj
  tid_inj := by
    intro j k u v hj hk huv
    rw [Function.update_apply] at hj hk
    split_ifs at hj hk with hji hki hki
    · rw [hji, hki]
    · obtain rfl := Option.some.inj hj
      exact absurd huv.symm (hfresh k v hk)
    · obtain rfl := Option.some.inj hk
      exact absurd huv (hfresh j u hj)
    · exact h.tid_inj j k u v hj hk huv
  nodup := by
    -- an id in the queue has a block, and no block has this id
    have hnot : t.tid ∉ q := by
      intro hmem
      obtain ⟨j, u, hj, -, htid⟩ := (h.mem_iff t.tid).mp hmem
      exact hfresh j u hj htid
    exact List.nodup_append_comm.mp (List.nodup_cons.mpr ⟨hnot, h.nodup⟩)
  mem_iff := by
    intro x
    rw [List.mem_append, List.mem_singleton, h.mem_iff]
    constructor
    · rintro (⟨j, u, hj, hu, hx⟩ | hx)
      · have hji : j ≠ i := fun hji => by simp [hji, hi] at hj
        exact ⟨j, u, (Function.update_of_ne hji ..).trans hj, hu, hx⟩
      · exact ⟨i, t, Function.update_self .., hstate, hx.symm⟩
    · rintro ⟨j, u, hj, hu, hx⟩
      rw [Function.update_apply] at hj
      split_ifs at hj with hji
      · obtain rfl := Option.some.inj hj
        exact Or.inr hx.symm
      · exact Or.inl ⟨j, u, hj, hu, hx⟩

/-- The block of an ended thread is given back. -/
theorem free (h : Schedule threads q running) (hi : threads i = some t)
    (hstate : t.state = .ended) : Schedule (Function.update threads i none) q running := by
  -- what is left was there before
  have hold : ∀ j u, Function.update threads i none j = some u → threads j = some u := by
    intro j u hj
    rw [Function.update_apply] at hj
    split_ifs at hj
    exact hj
  refine ⟨fun j u hj => h.slot j u (hold j u hj), ?_, h.nodup, ?_⟩
  · exact fun j k u v hj hk => h.tid_inj j k u v (hold j u hj) (hold k v hk)
  · intro x
    rw [h.mem_iff]
    constructor
    · rintro ⟨j, u, hj, hu, hx⟩
      have hji : j ≠ i := by
        intro hji
        subst hji
        obtain rfl := Option.some.inj (hj.symm.trans hi)
        rw [hstate] at hu
        exact ThreadState.noConfusion hu
      exact ⟨j, u, (Function.update_of_ne hji ..).trans hj, hu, hx⟩
    · rintro ⟨j, u, hj, hu, hx⟩
      exact ⟨j, u, hold j u hj, hu, hx⟩

end Schedule

/-! ## The table functions -/

namespace TusState

variable {s : TusState} {tid : Int}

theorem findSlotByTid_some (h : s.findSlotByTid tid = some i) :
    ∃ t, s.threads i = some t ∧ t.tid = tid := by
  have hpred := List.find?_some h
  rw [Option.any_eq_true] at hpred
  obtain ⟨t, ht, htid⟩ := hpred
  exact ⟨t, ht, beq_iff_eq.mp htid⟩

theorem findSlotByTid_none (h : s.findSlotByTid tid = none) (hi : s.threads i = some t) :
    t.tid ≠ tid := by
  have hpred := List.find?_eq_none.mp h i (List.mem_finRange i)
  rw [hi] at hpred
  simpa using hpred

theorem getTcbByTid_some (h : s.getTcbByTid tid = some (i, t)) :
    s.threads i = some t ∧ t.tid = tid ∧ 0 < tid := by
  unfold getTcbByTid at h
  split_ifs at h with hpos
  cases hfind : s.findSlotByTid tid with
  | none =>
    rw [hfind] at h
    cases h
  | some j =>
    obtain ⟨u, hu, htid⟩ := findSlotByTid_some hfind
    rw [hfind] at h
    simp only [hu, Option.map_some, Option.some.injEq, Prod.mk.injEq] at h
    obtain ⟨rfl, rfl⟩ := h
    exact ⟨hu, htid, by omega⟩

theorem getTcbByTid_none (h : s.getTcbByTid tid = none) (hpos : 0 < tid)
    (hi : s.threads i = some t) : t.tid ≠ tid := by
  unfold getTcbByTid at h
  rw [if_neg (by omega)] at h
  cases hfind : s.findSlotByTid tid with
  | none => exact findSlotByTid_none hfind hi
  | some j =>
    obtain ⟨u, hu, -⟩ := findSlotByTid_some hfind
    rw [hfind] at h
    simp [hu] at h

/-- A thread is found under its id. -/
theorem getTcbByTid_eq (h : Schedule s.threads q running) (hi : s.threads i = some t) :
    s.getTcbByTid t.tid = some (i, t) := by
  have hpos : 0 < t.tid := (h.slot i t hi).tid_range.1
  cases hget : s.getTcbByTid t.tid with
  | none => exact absurd rfl (getTcbByTid_none hget hpos hi)
  | some p =>
    obtain ⟨j, u⟩ := p
    obtain ⟨hj, htid, -⟩ := getTcbByTid_some hget
    -- whoever is found has the same id
    have hji : j = i := h.tid_inj j i u t hj hi htid
    subst hji
    rw [Option.some.inj (hi.symm.trans hj)]

theorem findSlotByTid_eq (h : Schedule s.threads q running) (hi : s.threads i = some t) :
    s.findSlotByTid t.tid = some i := by
  cases hfind : s.findSlotByTid t.tid with
  | none => exact absurd rfl (findSlotByTid_none hfind hi)
  | some j =>
    obtain ⟨u, hj, htid⟩ := findSlotByTid_some hfind
    rw [h.tid_inj j i u t hj hi htid]

theorem findFreeSlot_some (h : s.findFreeSlot = some i) : s.threads i = none := by
  have hpred := List.find?_some h
  exact Option.isNone_iff_eq_none.mp hpred

/-- With fewer than 64 threads there is a free slot. -/
theorem findFreeSlot_isSome (h : s.countExistingThreads < TUS_MAXTHREADS) :
    ∃ i, s.findFreeSlot = some i := by
  cases hfind : s.findFreeSlot with
  | some i => exact ⟨i, rfl⟩
  | none =>
    have hall : ∀ i ∈ List.finRange TUS_MAXTHREADS, (s.threads i).isSome = true := by
      intro i hi
      have hpred := List.find?_eq_none.mp hfind i hi
      exact Option.isSome_iff_ne_none.mpr fun hnone => hpred (by rw [hnone]; rfl)
    have hcount : s.countExistingThreads = TUS_MAXTHREADS := by
      rw [countExistingThreads, List.countP_eq_length.mpr hall, List.length_finRange]
    omega

/-- With a free slot there is a free id: 64 threads with different ids would fill
the table. -/
theorem exists_free_tid (hfree : s.threads i = none) :
    ∃ k : Fin TUS_MAXTHREADS, ∀ j t, s.threads j = some t → t.tid ≠ (k : Int) + 1 := by
  by_contra hall
  push Not at hall
  choose slot t hslot htid using hall
  -- each id would have a slot of its own
  have hinj : Function.Injective slot := by
    intro k l hkl
    have htt : t k = t l := Option.some.inj ((hslot k).symm.trans (hkl ▸ hslot l))
    have hkk := htid k
    rw [htt, htid l] at hkk
    exact Fin.ext (by omega)
  obtain ⟨k, hk⟩ := Finite.surjective_of_injective hinj i
  have hcontra := hslot k
  rw [hk, hfree] at hcontra
  cases hcontra

theorem allocateTid_spec (hfree : s.threads i = none) :
    (1 ≤ s.allocateTid ∧ s.allocateTid ≤ TUS_MAXTHREADS) ∧
      ∀ j t, s.threads j = some t → t.tid ≠ s.allocateTid := by
  unfold allocateTid
  simp only
  split
  · rename_i tid hfind
    obtain ⟨k, hk, rfl⟩ := List.mem_map.mp (List.mem_of_find?_eq_some hfind)
    have hlt := List.mem_range.mp hk
    have hpred := List.find?_some hfind
    have hnone := Option.isNone_iff_eq_none.mp hpred
    exact ⟨⟨by omega, by omega⟩, fun j t hj => getTcbByTid_none hnone (by omega) hj⟩
  · rename_i hfind
    -- the search would have stopped at the free id
    obtain ⟨k, hk⟩ := exists_free_tid hfree
    have hmem : (k : Int) + 1 ∈ (List.range TUS_MAXTHREADS).map fun (k : Nat) => (k : Int) + 1 :=
      List.mem_map.mpr ⟨k, List.mem_range.mpr k.isLt, rfl⟩
    have hsome := List.find?_eq_none.mp hfind _ hmem
    cases hget : s.getTcbByTid ((k : Int) + 1) with
    | none => exact absurd (by rw [hget]; rfl) hsome
    | some p =>
      obtain ⟨hj, htid, -⟩ := getTcbByTid_some (i := p.1) (t := p.2) hget
      exact absurd htid (hk p.1 p.2 hj)

end TusState

end OsProjects.Tus
