import Mathlib.Data.List.Nodup
import OsProjects.Tus.Definitions

/-!
# Thread library — the ready queue as a list

What each `rq_*` function does to `ReadyQ.toList`, the queue from its head on:

* `rqPush_spec`, `rqPop_spec`, `rqPushFront_spec` — the back and the front of the list;
  `rqPush_full`, `rqPop_empty`, `rqPushFront_full` — where they fail;
* `rqRemoveTid_spec` — `List.erase`: the first occurrence goes, the rest keeps its order;
* `drain_spec`, `refill_spec` — draining and refilling without one index is `List.eraseIdx`;
* `pickNextTidBySched_spec` — the pick takes one position out of the list, the front under
  `ALG_FCFS`; `pickNextTidBySched_random` says which one under `ALG_RANDOM`.

None of them finds the queue full where the list is not (`refused` stays).
-/

namespace OsProjects.Tus

namespace ReadyQ

variable {q : ReadyQ} {tid : Int} {xs : List Int}

/-- `rq_size` counts the ids in the queue. -/
theorem size_eq (q : ReadyQ) : q.ring.size = q.toList.length := (Ring.length_toList _).symm

/-- The array has a place for every thread there can be. -/
theorem length_le (q : ReadyQ) : q.toList.length ≤ TUS_MAXTHREADS := by
  rw [← size_eq]
  exact q.ring.size_le

/-- `rq_empty` looks at `rq_size` only. -/
theorem rqEmpty_iff (q : ReadyQ) : q.rqEmpty = true ↔ q.toList = [] := by
  unfold rqEmpty
  rw [beq_iff_eq, size_eq, List.length_eq_zero_iff]

/-- `q'` holds `xs`, and no push was refused on the way from `q`. -/
structure Becomes (q q' : ReadyQ) (xs : List Int) : Prop where
  toList : q'.toList = xs
  refused : q'.refused = q.refused

/-- One call after another. -/
theorem Becomes.trans {q₁ q₂ q₃ : ReadyQ} {ys : List Int} (h₁ : Becomes q₁ q₂ xs)
    (h₂ : Becomes q₂ q₃ ys) : Becomes q₁ q₃ ys :=
  ⟨h₂.toList, h₂.refused.trans h₁.refused⟩

/-- `rq_push` puts an id at the end while there is room. -/
theorem rqPush_spec (tid : Int) (h : q.toList.length < TUS_MAXTHREADS) :
    (q.rqPush tid).1 = TUS_SUCCESS ∧ Becomes q (q.rqPush tid).2 (q.toList ++ [tid]) := by
  obtain ⟨ring, hpush, hlist⟩ := Ring.push_some tid h
  rw [rqPush, hpush]
  exact ⟨rfl, hlist, rfl⟩

/-- `rq_pop` takes the first id. -/
theorem rqPop_spec (h : q.toList = tid :: xs) :
    q.rqPop.1 = tid ∧ Becomes q q.rqPop.2 xs := by
  obtain ⟨ring, hpop, hlist⟩ := Ring.pop_some h
  rw [rqPop, hpop]
  exact ⟨rfl, hlist, rfl⟩

/-- `rq_push_front` puts an id in front while there is room. -/
theorem rqPushFront_spec (tid : Int) (h : q.toList.length < TUS_MAXTHREADS) :
    (q.rqPushFront tid).1 = TUS_SUCCESS ∧ Becomes q (q.rqPushFront tid).2 (tid :: q.toList) := by
  obtain ⟨ring, hpush, hlist⟩ := Ring.pushFront_some tid h
  rw [rqPushFront, hpush]
  exact ⟨rfl, hlist, rfl⟩

/-- A full queue refuses another id and stays as it is. -/
theorem rqPush_full (tid : Int) (h : q.toList.length = TUS_MAXTHREADS) :
    (q.rqPush tid).1 = TUS_ERROR ∧ (q.rqPush tid).2.toList = q.toList := by
  have hfull := (Ring.push_eq_none q.ring tid).mpr (by rw [size_eq, h])
  rw [rqPush, hfull]
  exact ⟨rfl, rfl⟩

theorem rqPushFront_full (tid : Int) (h : q.toList.length = TUS_MAXTHREADS) :
    (q.rqPushFront tid).1 = TUS_ERROR ∧ (q.rqPushFront tid).2.toList = q.toList := by
  have hfull := (Ring.pushFront_eq_none q.ring tid).mpr (by rw [size_eq, h])
  rw [rqPushFront, hfull]
  exact ⟨rfl, rfl⟩

/-- An empty queue has nothing to give. -/
theorem rqPop_empty (h : q.toList = []) : q.rqPop = (TUS_ERROR, q) := by
  have hempty := (Ring.pop_eq_none q.ring).mpr (by rw [size_eq, h, List.length_nil])
  rw [rqPop, hempty]

/-- The second loop of `rq_remove_tid`: what was set aside goes back in order. -/
theorem pushAll_spec (temp : List Int) :
    ∀ q : ReadyQ, q.toList.length + temp.length ≤ TUS_MAXTHREADS →
      Becomes q (q.pushAll temp) (q.toList ++ temp) := by
  -- on the ids that were set aside
  induction temp with
  | nil =>
    intro q _
    exact ⟨(List.append_nil _).symm, rfl⟩
  | cons x temp ih =>
    intro q h
    rw [List.length_cons] at h
    obtain ⟨-, hpush⟩ := rqPush_spec x (q := q) (by omega)
    have hrest := ih (q.rqPush x).2 (by
      rw [hpush.toList, List.length_append, List.length_singleton]
      omega)
    rw [hpush.toList, List.append_assoc] at hrest
    exact hpush.trans hrest

/-! ## Removing one id -/

/-- What the first loop of `rq_remove_tid` does with a queue that holds `xs`: it
drains it into `temp`, without the first `tid` unless one was found before. -/
theorem removeLoop_spec (tid : Int) (xs : List Int) :
    ∀ (q : ReadyQ) (temp : List Int) (found : Bool), q.toList = xs →
      ∃ q', removeLoop tid xs.length q temp found =
          (q', temp ++ (if found then xs else xs.erase tid), found || decide (tid ∈ xs)) ∧
        Becomes q q' [] := by
  induction xs with
  | nil =>
    intro q temp found hq
    refine ⟨q, ?_, hq, rfl⟩
    cases found <;> simp [removeLoop]
  | cons x xs ih =>
    intro q temp found hq
    obtain ⟨hx, hpop⟩ := rqPop_spec hq
    rw [List.length_cons, removeLoop]
    simp only [hx]
    by_cases htake : x = tid ∧ found = false
    · -- the first occurrence: left out, and everything behind it is kept
      obtain ⟨rfl, rfl⟩ := htake
      obtain ⟨q', heq, hq'⟩ := ih q.rqPop.2 temp true hpop.toList
      refine ⟨q', ?_, hpop.trans hq'⟩
      rw [if_pos ⟨rfl, rfl⟩, heq]
      simp
    · -- another id, or a further occurrence: it is kept
      obtain ⟨q', heq, hq'⟩ := ih q.rqPop.2 (temp ++ [x]) found hpop.toList
      refine ⟨q', ?_, hpop.trans hq'⟩
      rw [if_neg htake, heq]
      cases found with
      | true => simp
      | false =>
        have hne : x ≠ tid := fun h => htake ⟨h, rfl⟩
        simp [List.erase_cons_tail (beq_eq_false_iff_ne.mpr hne ▸ Bool.false_ne_true), hne.symm]

/-- `rq_remove_tid` takes out the first occurrence, and says whether there was one. -/
theorem rqRemoveTid_spec (q : ReadyQ) (tid : Int) :
    (q.rqRemoveTid tid).1 = (if tid ∈ q.toList then TUS_SUCCESS else TUS_ERROR) ∧
      Becomes q (q.rqRemoveTid tid).2 (q.toList.erase tid) := by
  obtain ⟨q', heq, hq'⟩ := removeLoop_spec tid q.toList q [] false rfl
  rw [rqRemoveTid, size_eq, heq]
  refine ⟨?_, ?_⟩
  · simp
  · have hlen : (q.toList.erase tid).length ≤ TUS_MAXTHREADS :=
      Nat.le_trans (List.length_erase_le) q.length_le
    -- the refill starts from an empty queue and has room for what was in it
    have hall := pushAll_spec (q.toList.erase tid) q' (by
      rw [hq'.toList, List.length_nil, Nat.zero_add]
      exact hlen)
    rw [hq'.toList, List.nil_append] at hall
    exact hq'.trans hall

/-- The id is there. -/
theorem rqRemoveTid_mem (h : tid ∈ q.toList) :
    (q.rqRemoveTid tid).1 = TUS_SUCCESS ∧ Becomes q (q.rqRemoveTid tid).2 (q.toList.erase tid) := by
  have hspec := rqRemoveTid_spec q tid
  rw [if_pos h] at hspec
  exact hspec

/-! ## Picking -/

/-- The first loop of the random choice takes everything out. -/
theorem drain_spec (xs : List Int) :
    ∀ (q : ReadyQ) (temp : List Int), q.toList = xs →
      ∃ q', drain xs.length q temp = (q', temp ++ xs) ∧ Becomes q q' [] := by
  -- on what is in the queue
  induction xs with
  | nil =>
    intro q temp hq
    exact ⟨q, by rw [List.append_nil]; rfl, hq, rfl⟩
  | cons x xs ih =>
    intro q temp hq
    obtain ⟨hx, hpop⟩ := rqPop_spec hq
    obtain ⟨q', heq, hq'⟩ := ih q.rqPop.2 (temp ++ [x]) hpop.toList
    refine ⟨q', ?_, hpop.trans hq'⟩
    rw [List.length_cons, drain]
    simp only [hx]
    rw [heq, List.append_assoc, List.singleton_append]

/-- Refilling behind the picked index puts everything back. -/
theorem refill_behind (idx : Nat) (xs : List Int) :
    ∀ (i : Nat) (picked : Int) (q : ReadyQ), idx < i →
      q.toList.length + xs.length ≤ TUS_MAXTHREADS →
      (refill idx xs i picked q).1 = picked ∧
        Becomes q (refill idx xs i picked q).2 (q.toList ++ xs) := by
  -- on the ids behind the chosen place; all of them go back
  induction xs with
  | nil =>
    intro i picked q _ _
    exact ⟨rfl, (List.append_nil _).symm, rfl⟩
  | cons x xs ih =>
    intro i picked q hi hlen
    rw [List.length_cons] at hlen
    obtain ⟨-, hpush⟩ := rqPush_spec x (q := q) (by omega)
    rw [refill, if_neg (Nat.ne_of_gt hi)]
    obtain ⟨hcode, hrest⟩ := ih (i + 1) picked (q.rqPush x).2 (by omega) (by
      rw [hpush.toList, List.length_append, List.length_singleton]
      omega)
    rw [hpush.toList, List.append_assoc] at hrest
    exact ⟨hcode, hpush.trans hrest⟩

/-- Refilling from `k` places in front of the picked index on takes the value at
that place out. -/
theorem refill_spec (xs : List Int) :
    ∀ (k i : Nat) (picked : Int) (q : ReadyQ) (hk : k < xs.length),
      q.toList.length + xs.length ≤ TUS_MAXTHREADS →
      (refill (i + k) xs i picked q).1 = xs[k] ∧
        Becomes q (refill (i + k) xs i picked q).2 (q.toList ++ xs.eraseIdx k) := by
  induction xs with
  | nil =>
    intro k i picked q hk
    exact absurd hk (Nat.not_lt_zero k)
  | cons x xs ih =>
    intro k i picked q hk hlen
    rw [List.length_cons] at hlen
    cases k with
    | zero =>
      rw [refill, Nat.add_zero, if_pos rfl]
      -- the picked place: the value stays out
      exact refill_behind i xs (i + 1) x q (Nat.lt_succ_self i) (by omega)
    | succ k =>
      obtain ⟨-, hpush⟩ := rqPush_spec x (q := q) (by omega)
      -- one place nearer
      have hidx : i + (k + 1) = i + 1 + k := by omega
      rw [refill, if_neg (by omega), hidx]
      obtain ⟨hcode, hrest⟩ := ih k (i + 1) picked (q.rqPush x).2 (Nat.lt_of_succ_lt_succ hk) (by
        rw [hpush.toList, List.length_append, List.length_singleton]
        omega)
      rw [hpush.toList, List.append_assoc] at hrest
      exact ⟨hcode, hpush.trans hrest⟩

end ReadyQ

open ReadyQ

section Pick

variable {s : TusState} (rand : Nat) (hne : s.readyQ.toList ≠ [])

include hne

/-- Under `ALG_FCFS` the next thread is the one `rq_pop` returns. -/
theorem TusState.pickNextTidBySched_fcfs (hfcfs : s.schedAlg = ALG_FCFS) :
    s.pickNextTidBySched rand = (s.readyQ.rqPop.1, s.setQueue s.readyQ.rqPop.2) := by
  rw [pickNextTidBySched, if_neg (by rw [rqEmpty_iff]; exact hne), if_pos hfcfs]

/-- The random pick takes out the place that `rand` chooses. -/
theorem TusState.pickNextTidBySched_random (hrandom : s.schedAlg = ALG_RANDOM) :
    ∃ (hk : rand % s.readyQ.toList.length < s.readyQ.toList.length) (q : ReadyQ),
      s.pickNextTidBySched rand =
          (s.readyQ.toList[rand % s.readyQ.toList.length], s.setQueue q) ∧
        Becomes s.readyQ q (s.readyQ.toList.eraseIdx (rand % s.readyQ.toList.length)) := by
  -- the source tests for `ALG_FCFS` first
  have hnotfcfs : s.schedAlg ≠ ALG_FCFS := by rw [hrandom]; decide
  rw [pickNextTidBySched, if_neg (by rw [rqEmpty_iff]; exact hne), if_neg hnotfcfs,
    if_pos hrandom]
  obtain ⟨q', hdrain, hq'⟩ := drain_spec s.readyQ.toList s.readyQ [] rfl
  have hk : rand % s.readyQ.toList.length < s.readyQ.toList.length :=
    Nat.mod_lt _ (List.length_pos_iff.mpr hne)
  -- what was taken out fits again
  have hlen : q'.toList.length + s.readyQ.toList.length ≤ TUS_MAXTHREADS := by
    rw [hq'.toList, List.length_nil, Nat.zero_add]
    exact s.readyQ.length_le
  obtain ⟨hcode, hrest⟩ := refill_spec s.readyQ.toList _ 0 TUS_ERROR q' hk hlen
  rw [Nat.zero_add] at hcode hrest
  rw [hq'.toList, List.nil_append] at hrest
  refine ⟨hk, _, ?_, hq'.trans hrest⟩
  simp only [size_eq, hdrain, List.nil_append, hcode]

end Pick

/-- The pick of the scheduler from a queue that is not empty: the thread at some
position, the front one under `ALG_FCFS`, and only the queue changes. -/
theorem TusState.pickNextTidBySched_spec {s : TusState}
    (halg : s.schedAlg = ALG_FCFS ∨ s.schedAlg = ALG_RANDOM) (rand : Nat)
    (hne : s.readyQ.toList ≠ []) :
    ∃ (k : Nat) (hk : k < s.readyQ.toList.length) (q : ReadyQ),
      s.pickNextTidBySched rand = (s.readyQ.toList[k], s.setQueue q) ∧
      Becomes s.readyQ q (s.readyQ.toList.eraseIdx k) ∧ (s.schedAlg = ALG_FCFS → k = 0) := by
  by_cases hfcfs : s.schedAlg = ALG_FCFS
  -- the front
  · obtain ⟨x, xs, hlist⟩ := List.exists_cons_of_ne_nil hne
    obtain ⟨hx, hpop⟩ := rqPop_spec hlist
    refine ⟨0, List.length_pos_iff.mpr hne, s.readyQ.rqPop.2, ?_, ?_, fun _ => rfl⟩
    · rw [TusState.pickNextTidBySched_fcfs rand hne hfcfs]
      simp only [hx, hlist, List.getElem_cons_zero]
    · rw [hlist]
      exact hpop
  -- any place: `rand` decides
  · obtain ⟨hk, q, heq, hq⟩ :=
      TusState.pickNextTidBySched_random rand hne (halg.resolve_left hfcfs)
    exact ⟨_, hk, q, heq, hq, fun h => absurd h hfcfs⟩

/-- Neither algorithm finds a thread in an empty queue. -/
theorem TusState.pickNextTidBySched_empty {s : TusState} (rand : Nat)
    (h : s.readyQ.toList = []) : s.pickNextTidBySched rand = (TUS_ERROR, s) := by
  rw [pickNextTidBySched, if_pos ((rqEmpty_iff _).mpr h)]

end OsProjects.Tus
