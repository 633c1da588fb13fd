import OsProjects.Lib.Simulation
import OsProjects.Tus.ReadyQueue

/-!
# Thread library — the ready queue with its three counters

`ReadyQ` cannot be built with a head, a tail and a size that disagree. In `tus.c` they are
three `int` variables, and `rq_push`, `rq_pop` and `rq_push_front` change two of them each.
Here are the functions over such variables, written as the source has them; nothing in the
type says that the three agree.

* `counters_rqPush` and the lemmas after it — on the counters of a `ReadyQ`, each function
  does what the one over `ReadyQ` does;
* `counters_simulates` and `queueCall_simulates` — so the variables simulate the queue of the
  library, and this one simulates a list (`onList`);
* `call_runs` — after any calls from `rq_init`, or from any rotation of the buffer, the
  counters agree and the results and the queued ids are those of the list.
-/

namespace OsProjects.Tus

open Simulation

/-- `ready_q`, `rq_head`, `rq_tail` and `rq_size`. -/
structure Counters where
  readyQ : Nat → Int
  rqHead : Int
  rqTail : Int
  rqSize : Int

namespace Counters

/-- `rq_init`. -/
def rqInit (c : Counters) : Counters := { c with rqHead := 0, rqTail := 0, rqSize := 0 }

/-- `rq_empty`. -/
def rqEmpty (c : Counters) : Bool := c.rqSize == 0

/-- `rq_push`. -/
def rqPush (c : Counters) (tid : Int) : Int × Counters :=
  if c.rqSize ≥ TUS_MAXTHREADS then (TUS_ERROR, c)
  else
    (TUS_SUCCESS, {
      readyQ := Function.update c.readyQ c.rqTail.toNat tid
      rqHead := c.rqHead
      rqTail := (c.rqTail + 1).tmod TUS_MAXTHREADS
      rqSize := c.rqSize + 1 })

/-- `rq_pop`. -/
def rqPop (c : Counters) : Int × Counters :=
  if c.rqEmpty then (TUS_ERROR, c)
  else
    (c.readyQ c.rqHead.toNat, {
      readyQ := c.readyQ
      rqHead := (c.rqHead + 1).tmod TUS_MAXTHREADS
      rqTail := c.rqTail
      rqSize := c.rqSize - 1 })

/-- `rq_push_front`. -/
def rqPushFront (c : Counters) (tid : Int) : Int × Counters :=
  if c.rqSize ≥ TUS_MAXTHREADS then (TUS_ERROR, c)
  else
    -- from 0 the head goes to the last cell
    let rqHead := (c.rqHead - 1 + TUS_MAXTHREADS).tmod TUS_MAXTHREADS
    (TUS_SUCCESS, {
      readyQ := Function.update c.readyQ rqHead.toNat tid
      rqHead := rqHead
      rqTail := c.rqTail
      rqSize := c.rqSize + 1 })

/-- `rq_push(temp[i])` for every `i`. -/
def pushAll (c : Counters) (temp : List Int) : Counters :=
  temp.foldl (fun c x => (c.rqPush x).2) c

/-- The first loop of `rq_remove_tid`, `n` rounds of it. -/
def removeLoop (tid : Int) : Nat → Counters → List Int → Bool → Counters × List Int × Bool
  | 0, c, temp, found => (c, temp, found)
  | n + 1, c, temp, found =>
    let (x, c) := c.rqPop
    if x = tid ∧ found = false then removeLoop tid n c temp true
    else removeLoop tid n c (temp ++ [x]) found

/-- `rq_remove_tid`. -/
def rqRemoveTid (c : Counters) (tid : Int) : Int × Counters :=
  let (drained, temp, found) := removeLoop tid c.rqSize.toNat c [] false
  (if found then TUS_SUCCESS else TUS_ERROR, drained.pushAll temp)

/-- `temp[i] = rq_pop()`, `n` times. -/
def drain : Nat → Counters → List Int → Counters × List Int
  | 0, c, temp => (c, temp)
  | n + 1, c, temp =>
    let (x, c) := c.rqPop
    drain n c (temp ++ [x])

/-- The second loop of `pick_next_tid_by_sched`, from index `i` on. -/
def refill (idx : Int) : List Int → Nat → Int → Counters → Int × Counters
  | [], _, picked, c => (picked, c)
  | x :: temp, i, picked, c =>
    if i = idx then refill idx temp (i + 1) x c
    else refill idx temp (i + 1) picked (c.rqPush x).2

/-- `schedAlg` is the variable `sched_alg`, `rand` what `rand()` returns. -/
def pickNextTidBySched (c : Counters) (schedAlg : Int) (rand : Nat) : Int × Counters :=
  if c.rqEmpty then (TUS_ERROR, c)
  else if schedAlg = ALG_FCFS then c.rqPop
  else if schedAlg = ALG_RANDOM then
    let n := c.rqSize
    let idx := (rand : Int).tmod n
    let (c, temp) := drain n.toNat c []
    refill idx temp 0 TUS_ERROR c
  else (TUS_ERROR, c)

/-- The queued ids: `rq_size` cells from `rq_head` on, around the end of the array. -/
def toList (c : Counters) : List Int :=
  (List.range c.rqSize.toNat).map fun (i : Nat) =>
    c.readyQ ((c.rqHead + i) % TUS_MAXTHREADS).toNat

/-- The three variables agree, with the head at any cell. -/
structure Agree (c : Counters) : Prop where
  head_nonneg : 0 ≤ c.rqHead
  head_lt : c.rqHead < TUS_MAXTHREADS
  size_nonneg : 0 ≤ c.rqSize
  size_le : c.rqSize ≤ TUS_MAXTHREADS
  tail_eq : c.rqTail = (c.rqHead + c.rqSize) % TUS_MAXTHREADS

end Counters

/-! ## The counters of a queue -/

namespace ReadyQ

/-- The three variables and the array that hold a given queue. -/
def counters (q : ReadyQ) : Counters where
  readyQ := q.ring.data
  rqHead := q.ring.head
  rqTail := q.ring.tail
  rqSize := q.ring.size

/-- A wrapped index is the natural number that it is in `Ring`. -/
theorem tmod_index (n : Nat) : (n : Int).tmod TUS_MAXTHREADS = (n % TUS_MAXTHREADS : Nat) := by
  rw [Int.tmod_eq_emod_of_nonneg (Int.natCast_nonneg n)]
  rfl

/-- They are in range. -/
theorem counters_agree (q : ReadyQ) : q.counters.Agree where
  head_nonneg := Int.natCast_nonneg _
  head_lt := Int.ofNat_lt.mpr q.ring.head_lt
  size_nonneg := Int.natCast_nonneg _
  size_le := Int.ofNat_le.mpr q.ring.size_le
  tail_eq := by
    simp only [counters]
    rw [q.ring.tail_eq, Int.natCast_emod, Int.natCast_add]

/-- They hold the same ids. -/
theorem counters_toList (q : ReadyQ) : q.counters.toList = q.toList := by
  unfold Counters.toList toList Ring.toList
  simp only [counters, Int.toNat_natCast]
  refine List.map_congr_left fun i _ => ?_
  rw [← Int.natCast_add, ← Int.natCast_emod, Int.toNat_natCast]

/-- Variables that agree are the counters of a queue. -/
theorem exists_counters {c : Counters} (h : c.Agree) : ∃ q : ReadyQ, c = q.counters := by
  obtain ⟨readyQ, rqHead, rqTail, rqSize⟩ := c
  obtain ⟨hhead, hlt, hsize, hle, htail⟩ := h
  obtain ⟨head, rfl⟩ := Int.eq_ofNat_of_zero_le hhead
  obtain ⟨size, rfl⟩ := Int.eq_ofNat_of_zero_le hsize
  refine ⟨⟨⟨readyQ, head, (head + size) % TUS_MAXTHREADS, size, ?_, ?_, rfl⟩, 0⟩, ?_⟩
  · exact Int.ofNat_lt.mp hlt
  · exact Int.ofNat_le.mp hle
  · rw [counters, Int.natCast_emod, Int.natCast_add, ← htail]

variable (q : ReadyQ) (tid : Int)

theorem counters_rqEmpty : q.counters.rqEmpty = q.rqEmpty := by
  rw [Bool.eq_iff_iff, Counters.rqEmpty, rqEmpty, beq_iff_eq, beq_iff_eq]
  exact Int.natCast_eq_zero

/-- `rq_push` on the variables, with the wrap of `rq_tail`, is `rq_push` on the queue. -/
theorem counters_rqPush :
    q.counters.rqPush tid = ((q.rqPush tid).1, (q.rqPush tid).2.counters) := by
  unfold Counters.rqPush rqPush Ring.push
  by_cases hlt : q.ring.size < TUS_MAXTHREADS
  · rw [dif_pos hlt, if_neg (by simp only [counters]; omega)]
    simp only [counters, Int.toNat_natCast, ← tmod_index, Int.natCast_add, Int.natCast_one]
  · rw [dif_neg hlt, if_pos (by simp only [counters]; omega)]
    rfl

/-- The same of `rq_pop` and the wrap of `rq_head`. -/
theorem counters_rqPop : q.counters.rqPop = (q.rqPop.1, q.rqPop.2.counters) := by
  unfold Counters.rqPop rqPop Ring.pop
  rw [counters_rqEmpty]
  by_cases hpos : 0 < q.ring.size
  · rw [dif_pos hpos, if_neg (by rw [rqEmpty, beq_iff_eq]; omega)]
    simp only [counters, Int.toNat_natCast, ← tmod_index, Int.natCast_add, Int.natCast_one,
      Int.natCast_sub hpos]
  · rw [dif_neg hpos, if_pos (by rw [rqEmpty, beq_iff_eq]; omega)]

/-- `rq_push_front` steps back below 0 and to the other end of the array. -/
theorem counters_rqPushFront :
    q.counters.rqPushFront tid = ((q.rqPushFront tid).1, (q.rqPushFront tid).2.counters) := by
  unfold Counters.rqPushFront rqPushFront Ring.pushFront
  -- a full queue is left alone
  by_cases hlt : q.ring.size < TUS_MAXTHREADS
  · -- `%` sees no negative number
    have hback : (q.ring.head : Int) - 1 + TUS_MAXTHREADS =
        (q.ring.head + TUS_MAXTHREADS - 1 : Nat) := by
      have hhead := q.ring.head_lt
      omega
    rw [dif_pos hlt, if_neg (by simp only [counters]; omega)]
    simp only [counters, hback, tmod_index, Int.toNat_natCast, Int.natCast_add, Int.natCast_one]
  · rw [dif_neg hlt, if_pos (by simp only [counters]; omega)]
    rfl

/-- The loop that refills the queue, call by call. -/
theorem counters_pushAll (temp : List Int) :
    ∀ q : ReadyQ, q.counters.pushAll temp = (q.pushAll temp).counters := by
  induction temp with
  | nil => exact fun _ => rfl
  | cons x temp ih =>
    intro q
    have hstep := ih (q.rqPush x).2
    rw [Counters.pushAll, List.foldl_cons, counters_rqPush]
    exact hstep

/-- The loop that empties the queue, call by call. -/
theorem counters_removeLoop (n : Nat) :
    ∀ (q : ReadyQ) (temp : List Int) (found : Bool),
      Counters.removeLoop tid n q.counters temp found =
        ((removeLoop tid n q temp found).1.counters, (removeLoop tid n q temp found).2) := by
  -- on the number of passes
  induction n with
  | zero => exact fun _ _ _ => rfl
  | succ n ih =>
    intro q temp found
    rw [Counters.removeLoop, removeLoop, counters_rqPop]
    simp only
    -- the id is left out once
    split_ifs with htake
    · exact ih _ _ _
    · exact ih _ _ _

/-- `rq_remove_tid` is the two loops. -/
theorem counters_rqRemoveTid :
    q.counters.rqRemoveTid tid = ((q.rqRemoveTid tid).1, (q.rqRemoveTid tid).2.counters) := by
  unfold Counters.rqRemoveTid rqRemoveTid
  have hsize : q.counters.rqSize.toNat = q.ring.size := Int.toNat_natCast _
  rw [hsize, counters_removeLoop]
  simp only [counters_pushAll]

/-- The first loop of the random choice. -/
theorem counters_drain (n : Nat) :
    ∀ (q : ReadyQ) (temp : List Int),
      Counters.drain n q.counters temp = ((drain n q temp).1.counters, (drain n q temp).2) := by
  induction n with
  | zero => exact fun _ _ => rfl
  | succ n ih =>
    intro q temp
    rw [Counters.drain, drain, counters_rqPop]
    exact ih _ _

theorem counters_refill (idx : Nat) (temp : List Int) :
    ∀ (i : Nat) (picked : Int) (q : ReadyQ),
      Counters.refill idx temp i picked q.counters =
        ((refill idx temp i picked q).1, (refill idx temp i picked q).2.counters) := by
  -- on the ids that were set aside
  induction temp with
  | nil => exact fun _ _ _ => rfl
  | cons x temp ih =>
    intro i picked q
    rw [Counters.refill, refill, counters_rqPush]
    -- the id at the chosen place stays out
    by_cases hidx : i = idx
    · rw [if_pos hidx, if_pos (congrArg Nat.cast hidx)]
      exact ih _ _ _
    · rw [if_neg hidx, if_neg (fun h => hidx (Int.ofNat_inj.mp h))]
      exact ih _ _ _

end ReadyQ

open ReadyQ

/-- The choice of the next thread under either algorithm. -/
theorem TusState.counters_pick (s : TusState) (rand : Nat) :
    s.readyQ.counters.pickNextTidBySched s.schedAlg rand =
      ((s.pickNextTidBySched rand).1, (s.pickNextTidBySched rand).2.readyQ.counters) := by
  unfold Counters.pickNextTidBySched pickNextTidBySched
  rw [counters_rqEmpty]
  -- the three tests of the source
  by_cases hempty : s.readyQ.rqEmpty = true
  · rw [if_pos hempty, if_pos hempty]
  · rw [if_neg hempty, if_neg hempty]
    by_cases hfcfs : s.schedAlg = ALG_FCFS
    · rw [if_pos hfcfs, if_pos hfcfs, counters_rqPop]
      rfl
    · rw [if_neg hfcfs, if_neg hfcfs]
      by_cases hrandom : s.schedAlg = ALG_RANDOM
      · have hsize : s.readyQ.counters.rqSize = (s.readyQ.ring.size : Int) := rfl
        -- `rand % rq_size` of two non-negative numbers
        have hidx : (rand : Int).tmod (s.readyQ.ring.size : Int) =
            (rand % s.readyQ.ring.size : Nat) := by
          rw [Int.tmod_eq_emod_of_nonneg (Int.natCast_nonneg rand), Int.natCast_emod]
        rw [if_pos hrandom, if_pos hrandom]
        simp only [hsize, hidx, Int.toNat_natCast, counters_drain, counters_refill]
        rfl
      · rw [if_neg hrandom, if_neg hrandom]

/-! ## Sequences of calls -/

/-- One call of a function of the queue; for the pick, with the value of `sched_alg` and
what `rand()` returns. -/
inductive QueueCall
  | push (tid : Int)
  | pop
  | pushFront (tid : Int)
  | removeTid (tid : Int)
  | pick (schedAlg : Int) (rand : Nat)
  deriving DecidableEq, Repr

/-- A call on the variables. -/
def Counters.call (c : Counters) : QueueCall → Int × Counters
  | .push tid => c.rqPush tid
  | .pop => c.rqPop
  | .pushFront tid => c.rqPushFront tid
  | .removeTid tid => c.rqRemoveTid tid
  | .pick schedAlg rand => c.pickNextTidBySched schedAlg rand

/-- The same call on the state of the scheduler. -/
def TusState.queueCall (s : TusState) : QueueCall → Int × TusState
  | .push tid => ((s.readyQ.rqPush tid).1, s.setQueue (s.readyQ.rqPush tid).2)
  | .pop => (s.readyQ.rqPop.1, s.setQueue s.readyQ.rqPop.2)
  | .pushFront tid => ((s.readyQ.rqPushFront tid).1, s.setQueue (s.readyQ.rqPushFront tid).2)
  | .removeTid tid => ((s.readyQ.rqRemoveTid tid).1, s.setQueue (s.readyQ.rqRemoveTid tid).2)
  | .pick schedAlg rand => { s with schedAlg := schedAlg }.pickNextTidBySched rand

/-- What the queue is for: the calls on a list of at most `TUS_MAXTHREADS` ids. -/
def onList (l : List Int) : QueueCall → Int × List Int
  | .push tid =>
    if l.length = TUS_MAXTHREADS then (TUS_ERROR, l) else (TUS_SUCCESS, l ++ [tid])
  | .pop => (l.headD TUS_ERROR, l.tail)
  | .pushFront tid =>
    if l.length = TUS_MAXTHREADS then (TUS_ERROR, l) else (TUS_SUCCESS, tid :: l)
  | .removeTid tid => if tid ∈ l then (TUS_SUCCESS, l.erase tid) else (TUS_ERROR, l)
  | .pick schedAlg rand =>
    if schedAlg = ALG_FCFS then (l.headD TUS_ERROR, l.tail)
    else if schedAlg = ALG_RANDOM then
      (l.getD (rand % l.length) TUS_ERROR, l.eraseIdx (rand % l.length))
    else (TUS_ERROR, l)

/-- A call on the variables is the call on the queue they are the counters of. -/
theorem TusState.counters_call (s : TusState) (call : QueueCall) :
    s.readyQ.counters.call call =
      ((s.queueCall call).1, (s.queueCall call).2.readyQ.counters) := by
  cases call with
  | push tid => exact counters_rqPush _ _
  | pop => exact counters_rqPop _
  | pushFront tid => exact counters_rqPushFront _ _
  | removeTid tid => exact counters_rqRemoveTid _ _
  | pick schedAlg rand => exact counters_pick { s with schedAlg := schedAlg } rand

/-- The variables do what the queue does. -/
theorem counters_simulates :
    Simulates Counters.call TusState.queueCall fun c s => c = s.readyQ.counters where
  result := fun h call => by rw [h, TusState.counters_call]
  state := fun h call => by rw [h, TusState.counters_call]

/-- The queue does what the list of its ids does. -/
theorem ReadyQ.rqPop_onList (q : ReadyQ) :
    q.rqPop.1 = q.toList.headD TUS_ERROR ∧ q.rqPop.2.toList = q.toList.tail := by
  cases hlist : q.toList with
  | nil =>
    rw [rqPop_empty hlist]
    exact ⟨rfl, hlist⟩
  | cons x xs =>
    obtain ⟨hx, hpop⟩ := rqPop_spec hlist
    exact ⟨hx, hpop.toList⟩

/-- The thread that is chosen depends on the ids and their order only. -/
theorem TusState.pick_onList (s : TusState) (rand : Nat) :
    (s.pickNextTidBySched rand).1 = (onList s.readyQ.toList (.pick s.schedAlg rand)).1 ∧
      (s.pickNextTidBySched rand).2.readyQ.toList =
        (onList s.readyQ.toList (.pick s.schedAlg rand)).2 := by
  simp only [onList]
  by_cases hempty : s.readyQ.toList = []
  · rw [pickNextTidBySched_empty rand hempty, hempty]
    split_ifs <;> exact ⟨rfl, rfl⟩
  by_cases hfcfs : s.schedAlg = ALG_FCFS
  · rw [pickNextTidBySched_fcfs rand hempty hfcfs, if_pos hfcfs]
    exact s.readyQ.rqPop_onList
  by_cases hrandom : s.schedAlg = ALG_RANDOM
  · obtain ⟨hk, q, heq, hq⟩ := pickNextTidBySched_random rand hempty hrandom
    rw [heq, if_neg hfcfs, if_pos hrandom]
    refine ⟨?_, hq.toList⟩
    rw [List.getD_eq_getElem?_getD, List.getElem?_eq_getElem hk, Option.getD_some]
  · rw [if_neg hfcfs, if_neg hrandom, pickNextTidBySched,
      if_neg (by rw [rqEmpty_iff]; exact hempty), if_neg hfcfs, if_neg hrandom]
    exact ⟨rfl, rfl⟩

/-- Every call depends on nothing else. -/
theorem TusState.queueCall_onList (s : TusState) (call : QueueCall) :
    (s.queueCall call).1 = (onList s.readyQ.toList call).1 ∧
      (s.queueCall call).2.readyQ.toList = (onList s.readyQ.toList call).2 := by
  -- what is not full has room
  have hroom : s.readyQ.toList.length ≠ TUS_MAXTHREADS →
      s.readyQ.toList.length < TUS_MAXTHREADS := Nat.lt_of_le_of_ne s.readyQ.length_le
  cases call with
  | push tid =>
    simp only [queueCall, onList]
    split_ifs with hfull
    · exact rqPush_full tid hfull
    · obtain ⟨hcode, hpush⟩ := rqPush_spec tid (hroom hfull)
      exact ⟨hcode, hpush.toList⟩
  | pop => exact s.readyQ.rqPop_onList
  | pushFront tid =>
    simp only [queueCall, onList]
    split_ifs with hfull
    · exact rqPushFront_full tid hfull
    · obtain ⟨hcode, hpush⟩ := rqPushFront_spec tid (hroom hfull)
      exact ⟨hcode, hpush.toList⟩
  | removeTid tid =>
    obtain ⟨hcode, hrest⟩ := rqRemoveTid_spec s.readyQ tid
    simp only [queueCall, onList]
    split_ifs with hmem
    · rw [if_pos hmem] at hcode
      exact ⟨hcode, hrest.toList⟩
    · -- without the id there is nothing to erase
      rw [if_neg hmem] at hcode
      exact ⟨hcode, hrest.toList.trans (List.erase_of_not_mem hmem)⟩
  | pick schedAlg rand => exact pick_onList { s with schedAlg := schedAlg } rand

/-- So the queue does what the list does. -/
theorem queueCall_simulates :
    Simulates TusState.queueCall onList fun s l => s.readyQ.toList = l where
  result := fun {s _} h call => by rw [← h, (s.queueCall_onList call).1]
  state := fun {s _} h call => by rw [← h, (s.queueCall_onList call).2]

/-- The calls `cs` from `c` on do what they do on the list `l`. -/
structure Counters.BehavesAs (c : Counters) (l : List Int) (cs : List QueueCall) : Prop where
  results : (runs Counters.call c cs).1 = (runs onList l cs).1
  queued : (runs Counters.call c cs).2.toList = (runs onList l cs).2
  agree : (runs Counters.call c cs).2.Agree

/-- Any sequence of calls, from any counters in range. -/
theorem Counters.Agree.behavesAs {c : Counters} (h : c.Agree) (cs : List QueueCall) :
    c.BehavesAs c.toList cs := by
  obtain ⟨q, rfl⟩ := exists_counters h
  -- any state of the library with this queue will do
  let s : TusState := ⟨fun _ => none, -1, false, 0, q, 0, 0, []⟩
  obtain ⟨hresults, ⟨s', hend, hlist⟩⟩ := (counters_simulates.comp queueCall_simulates).all cs
    (s := q.counters) (t := q.counters.toList) ⟨s, rfl, (counters_toList q).symm⟩
  refine ⟨hresults, ?_, ?_⟩
  · rw [hend, counters_toList, hlist]
  · rw [hend]
    exact counters_agree _

/-- `rq_init` brings any counters into range. -/
theorem Counters.rqInit_agree (c : Counters) : c.rqInit.Agree where
  head_nonneg := le_rfl
  head_lt := Int.ofNat_lt.mpr (Nat.zero_lt_succ 63)
  size_nonneg := le_rfl
  size_le := Int.natCast_nonneg _
  tail_eq := rfl

/-- The ring buffer is a list: after any calls from `rq_init`, and from any rotation and any
contents. -/
theorem Counters.call_runs (cs : List QueueCall) :
    (∀ c : Counters, c.rqInit.BehavesAs [] cs) ∧
      ∀ c : Counters, c.Agree → c.BehavesAs c.toList cs :=
  ⟨fun c => c.rqInit_agree.behavesAs cs, fun _ h => h.behavesAs cs⟩

/-- Two ids around the end of the array. -/
theorem Counters.call_runs_wrapped : Counters.BehavesAs ⟨fun i => i, 63, 1, 2⟩ [63, 0]
    [.pushFront 7, .removeTid 63, .pick ALG_RANDOM 5, .pop, .pop] :=
  (Counters.call_runs _).2 ⟨fun i => i, 63, 1, 2⟩
    ⟨by decide, by decide, by decide, by decide, by decide⟩

end OsProjects.Tus
