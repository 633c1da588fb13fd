import OsProjects.Rsm.Persistence

/-!
# Resource manager — disciplined applications

An application is one process per application id, each of which runs a fixed
list of calls and ignores what they return, as the programs of `myapp.c` do
(`App`). Its calls interleave in any order (`AppStep`).

`Ledger` is what a process can know of its own row from the calls it has made.
A script is disciplined if its ledger permits every call of it and ends where
it began. `Agrees` relates a ledger to the row in the segment, and the library
accepts whatever the ledger permits (`Caller.accepted`).
-/

namespace OsProjects.Rsm

open Completion Reduction

variable {n m : Nat}

/-! ## Applications -/

/-- One process per application id, with the calls it still has to make. -/
structure App (n m : Nat) where
  sys : System n m
  rest : Fin n → List (Call m)

/-- The application right after the forks. -/
def App.start (s₀ : RsmSharedState n m) (scripts : Fin n → List (Call m)) : App n m where
  sys := System.init s₀
  rest := scripts

/-- Process `pids i` makes its next call, or returns from `sem_wait`. -/
inductive AppStep (pids : Fin n → Int) : App n m → App n m → Prop where
  | call {app : App n m} {i : Fin n} {c : Call m} {cs : List (Call m)} {sys' : System n m}
      (hrest : app.rest i = c :: cs) (hstep : Step app.sys (.call (pids i) c) sys') :
      AppStep pids app ⟨sys', Function.update app.rest i cs⟩
  | wake {app : App n m} {i : Fin n} {sys' : System n m}
      (hstep : Step app.sys (.wake (pids i)) sys') : AppStep pids app { app with sys := sys' }

/-- A run of `k` steps. -/
inductive AppRun (pids : Fin n → Int) (app₀ : App n m) : Nat → App n m → Prop where
  | refl : AppRun pids app₀ 0 app₀
  | step {k : Nat} {app app' : App n m} (h : AppRun pids app₀ k app)
      (hstep : AppStep pids app app') : AppRun pids app₀ (k + 1) app'

/-- No process can do anything. -/
def App.Stuck (pids : Fin n → Int) (app : App n m) : Prop := ∀ app', ¬ AppStep pids app app'

/-- Process `i` gets a turn: it returns from `sem_wait` if it can, and makes its
next call if it is awake. -/
def App.turn (pids : Fin n → Int) (app : App n m) (i : Fin n) : App n m :=
  match app.sys.asleep (pids i), app.rest i with
  | some a, _ =>
    if 0 < app.sys.shared.processSem a then { app with sys := app.sys.wake (pids i) a } else app
  | none, c :: cs => ⟨app.sys.call (pids i) c, Function.update app.rest i cs⟩
  | none, [] => app

theorem App.turn_run {pids : Fin n → Int} {app₀ app : App n m} {k : Nat}
    (h : AppRun pids app₀ k app) (i : Fin n) : ∃ k', AppRun pids app₀ k' (app.turn pids i) := by
  cases hs : app.sys.asleep (pids i) with
  | some a =>
    by_cases htoken : 0 < app.sys.shared.processSem a
    · exact ⟨k + 1, by simpa [App.turn, hs, htoken] using h.step (.wake (.wake hs htoken))⟩
    · exact ⟨k, by simpa [App.turn, hs, htoken] using h⟩
  | none =>
    cases hrest : app.rest i with
    | nil => exact ⟨k, by simpa [App.turn, hs, hrest] using h⟩
    | cons c cs =>
      exact ⟨k + 1, by simpa [App.turn, hs, hrest] using h.step (.call hrest (.call c hs))⟩

/-- Whatever the turns, they make a run. -/
theorem App.turns_run (pids : Fin n → Int) (app : App n m) (turns : List (Fin n)) :
    ∃ k, AppRun pids app k (turns.foldl (App.turn pids) app) := by
  have hfold : ∀ (turns : List (Fin n)) (app' : App n m), (∃ k, AppRun pids app k app') →
      ∃ k, AppRun pids app k (turns.foldl (App.turn pids) app') := by
    intro turns
    induction turns with
    | nil => exact fun _ h => h
    | cons i turns ih =>
      rintro app' ⟨k, h⟩
      exact ih _ (App.turn_run h i)
  exact hfold turns app ⟨0, .refl⟩

/-- Nobody gets anywhere with a turn. -/
theorem App.stuck_of_turns {pids : Fin n → Int} {app : App n m}
    (hawake : ∀ i, app.sys.asleep (pids i) = none → app.rest i = [])
    (hasleep : ∀ i a, app.sys.asleep (pids i) = some a → app.sys.shared.processSem a = 0) :
    app.Stuck pids := by
  intro app' hstep
  -- a step is a call or a wake-up
  cases hstep with
  | call hrest hstep =>
    cases hstep with
    | call _ hs => exact absurd (hawake _ hs) (by simp [hrest])
  | wake hstep =>
    cases hstep with
    | wake hs htoken =>
      have := hasleep _ _ hs
      omega

/-- Every process has made all its calls. -/
def App.Done (app : App n m) : Prop := ∀ i, app.rest i = []

/-! ## Ledgers -/

/-- What a process knows of its row: the calls it has made, all accepted. -/
structure Ledger (m : Nat) where
  started : Bool
  claimed : Bool
  claim : Vec m
  requested : Bool
  held : Vec m
  deriving DecidableEq

/-- The ledger of a process that has not started, or has ended. -/
def Ledger.outside : Ledger m := ⟨false, false, 0, false, 0⟩

/-- The ledger after a call of process `apid`; `none` for a call that a
disciplined process does not make. -/
def Ledger.next (avoid : Bool) (existing : Vec m) (apid : Nat) (l : Ledger m) :
    Call m → Option (Ledger m)
  | .processStarted a =>
    if a = apid ∧ l.started = false then some { l with started := true } else none
  | .processEnded => if l.started = true then some .outside else none
  | .claim v =>
    if l.started = true ∧ (∀ j, 0 ≤ v j) then
      if avoid = true then
        if l.claimed = false ∧ l.requested = false ∧ ∀ j, v j ≤ existing j then
          some { l with claimed := true, claim := v }
        else none
      else some l
    else none
  | .request v =>
    -- never more than exists of a resource, and never more than was claimed
    if l.started = true ∧ (∀ j, 0 ≤ v j) ∧ (∀ j, l.held j + v j ≤ existing j) ∧
        (avoid = true → l.claimed = true ∧ ∀ j, l.held j + v j ≤ l.claim j) then
      some { l with requested := true, held := fun j => l.held j + v j }
    else none
  | .release v =>
    if l.started = true ∧ (∀ j, 0 ≤ v j) ∧ ∀ j, v j ≤ l.held j then
      some { l with held := fun j => l.held j - v j }
    else none

/-- The ledger after a whole script. -/
def Ledger.after (avoid : Bool) (existing : Vec m) (apid : Nat) :
    Ledger m → List (Call m) → Option (Ledger m)
  | l, [] => some l
  | l, c :: cs => (l.next avoid existing apid c).bind fun l => l.after avoid existing apid cs

/-- A script whose ledger permits every call, from the start of the process to
its end. -/
def Disciplined (avoid : Bool) (existing : Vec m) (apid : Nat) (script : List (Call m)) : Prop :=
  Ledger.outside.after avoid existing apid script = some .outside

instance (avoid : Bool) (existing : Vec m) (apid : Nat) (script : List (Call m)) :
    Decidable (Disciplined avoid existing apid script) :=
  inferInstanceAs (Decidable (_ = _))

theorem Ledger.after_append {avoid : Bool} {existing : Vec m} {apid : Nat} {l : Ledger m}
    (cs cs' : List (Call m)) : l.after avoid existing apid (cs ++ cs') =
      (l.after avoid existing apid cs).bind fun l => l.after avoid existing apid cs' := by
  induction cs generalizing l with
  | nil => rfl
  | cons c cs ih =>
    simp only [List.cons_append, Ledger.after, Option.bind_assoc]
    congr 1
    funext l
    exact ih

/-- A ledger within what exists. -/
def Ledger.Fits (existing : Vec m) (l : Ledger m) : Prop := ∀ j, l.held j ≤ existing j

theorem Ledger.Fits.next {avoid : Bool} {existing : Vec m} {apid : Nat} {l l' : Ledger m}
    {c : Call m} (hexist : ∀ j, 0 ≤ existing j) (h : l.Fits existing)
    (hnext : l.next avoid existing apid c = some l') : l'.Fits existing := by
  -- on the call
  cases c with
  | processStarted a =>
    simp only [Ledger.next, Option.ite_none_right_eq_some, Option.some.injEq] at hnext
    exact hnext.2 ▸ h
  | processEnded =>
    simp only [Ledger.next, Option.ite_none_right_eq_some, Option.some.injEq] at hnext
    exact hnext.2 ▸ hexist
  | claim v =>
    simp only [Ledger.next, Option.ite_none_right_eq_some] at hnext
    have hsplit := hnext.2
    split at hsplit
    · simp only [Option.ite_none_right_eq_some, Option.some.injEq] at hsplit
      exact hsplit.2 ▸ h
    · exact Option.some.inj hsplit ▸ h
  | request v =>
    simp only [Ledger.next, Option.ite_none_right_eq_some, Option.some.injEq] at hnext
    exact hnext.2 ▸ hnext.1.2.2.1
  | release v =>
    simp only [Ledger.next, Option.ite_none_right_eq_some, Option.some.injEq] at hnext
    obtain ⟨⟨-, hnonneg, -⟩, rfl⟩ := hnext
    -- a release lowers what is held
    intro j
    have h₁ := h j
    have h₂ := hnonneg j
    show l.held j - v j ≤ existing j
    omega

theorem Ledger.after_cons {avoid : Bool} {existing : Vec m} {apid : Nat} {l l₂ : Ledger m}
    {c : Call m} {cs : List (Call m)} (h : l.after avoid existing apid (c :: cs) = some l₂) :
    ∃ l₁, l.next avoid existing apid c = some l₁ ∧ l₁.after avoid existing apid cs = some l₂ :=
  Option.bind_eq_some_iff.mp h

theorem Ledger.Fits.after {avoid : Bool} {existing : Vec m} {apid : Nat} {l l' : Ledger m}
    {cs : List (Call m)} (hexist : ∀ j, 0 ≤ existing j) (h : l.Fits existing)
    (hafter : l.after avoid existing apid cs = some l') : l'.Fits existing := by
  induction cs generalizing l with
  | nil => exact Option.some.inj hafter ▸ h
  | cons c cs ih =>
    obtain ⟨l₁, hnext, hcs⟩ := Ledger.after_cons hafter
    exact ih (h.next hexist hnext) hcs

/-- The ledger of a process that still has to run `rest` of its script. -/
def Ledger.At (avoid : Bool) (existing : Vec m) (apid : Nat) (script rest : List (Call m))
    (l : Ledger m) : Prop :=
  ∃ pre, script = pre ++ rest ∧ Ledger.outside.after avoid existing apid pre = some l

section At

variable {avoid : Bool} {existing : Vec m} {apid : Nat} {script rest : List (Call m)}
  {l l' : Ledger m}

theorem Ledger.At.next {c : Call m} (h : l.At avoid existing apid script (c :: rest))
    (hnext : l.next avoid existing apid c = some l') : l'.At avoid existing apid script rest := by
  obtain ⟨pre, rfl, hpre⟩ := h
  refine ⟨pre ++ [c], by simp, ?_⟩
  rw [Ledger.after_append, hpre, Option.bind_some, Ledger.after, hnext]
  rfl

/-- The rest of a disciplined script is permitted. -/
theorem Ledger.At.after (h : l.At avoid existing apid script rest)
    (hscript : Disciplined avoid existing apid script) :
    l.after avoid existing apid rest = some .outside := by
  obtain ⟨pre, rfl, hpre⟩ := h
  rwa [Disciplined, Ledger.after_append, hpre, Option.bind_some] at hscript

theorem Ledger.At.fits (h : l.At avoid existing apid script rest) (hexist : ∀ j, 0 ≤ existing j) :
    l.Fits existing := by
  obtain ⟨pre, -, hpre⟩ := h
  have hstart : Ledger.outside.Fits existing := hexist
  exact hstart.after hexist hpre

end At

/-! ## Rows that agree with a ledger -/

/-- The row of `i`, owned by process `pid`, is the one the ledger `l` tells
of. A request that waits is on the ledger already. -/
structure Agrees (pid : Int) (s : RsmSharedState n m) (i : Fin n) (l : Ledger m) : Prop where
  started : s.started i = l.started
  owner : s.apidToPid i = if l.started then pid else -1
  claimed : s.claimed i = l.claimed
  requested : s.requestedOnce i = l.requested
  claim : s.avoidEnabled = true → s.maxDemand i = l.claim
  held : ∀ j, s.allocation i j + s.request i j = l.held j
  outside : l.started = false → l = .outside

section Agrees

variable {pid : Int} {s t : RsmSharedState n m} {i : Fin n} {l : Ledger m}

theorem Agrees.init (pid : Int) (exist : Vec m) (avoid : Bool) (i : Fin n) :
    Agrees pid (initialState n m exist avoid) i .outside where
  started := rfl
  owner := rfl
  claimed := rfl
  requested := rfl
  claim _ := rfl
  held _ := rfl
  outside _ := rfl

/-- The row of the process, and the mode, are all that matters. -/
theorem Agrees.of_process (h : Agrees pid s i l) (hrow : t.process i = s.process i)
    (hav : t.avoidEnabled = s.avoidEnabled) : Agrees pid t i l := by
  simp only [RsmSharedState.process, ProcessRow.mk.injEq] at hrow
  obtain ⟨halloc, hreq, hmax, -, hpid, hst, -, hcl, hro, -, -⟩ := hrow
  exact ⟨by rw [hst, h.started], by rw [hpid, h.owner], by rw [hcl, h.claimed],
    by rw [hro, h.requested], fun ha => by rw [hmax, h.claim (hav ▸ ha)],
    fun j => by rw [halloc, hreq, h.held], h.outside⟩

/-- A grant moves the request into the allocation; the ledger has both. -/
theorem Agrees.of_granted (h : Agrees pid s i l) {avoid : Bool}
    (hrow : t.process i = (s.process i).granted avoid)
    (hav : t.avoidEnabled = s.avoidEnabled) : Agrees pid t i l := by
  simp only [RsmSharedState.process, ProcessRow.granted, ProcessRow.mk.injEq] at hrow
  obtain ⟨halloc, hreq, hmax, -, hpid, hst, -, hcl, hro, -, -⟩ := hrow
  exact ⟨by rw [hst, h.started], by rw [hpid, h.owner], by rw [hcl, h.claimed],
    by rw [hro, h.requested], fun ha => by rw [hmax, h.claim (hav ▸ ha)],
    fun j => by rw [halloc, hreq, ← h.held]; simp, h.outside⟩

/-- A rescan does not write the row of a process that is not waiting. -/
theorem Agrees.trySatisfyWaiting (h : Agrees pid s i l) (hidle : s.waiting i = false) :
    Agrees pid (trySatisfyWaiting s) i l := by
  obtain ⟨granted, hg⟩ := trySatisfyWaiting_granted s
  refine h.of_process (hg.others i fun hi => ?_) hg.avoid
  rw [(hg.served i hi).1] at hidle
  exact absurd hidle (by simp)

end Agrees

/-! ## The library accepts what the ledger permits -/

/-- The parts of the segment no call writes. -/
structure Configured (s : RsmSharedState n m) (existing : Vec m) (avoid : Bool) : Prop where
  initialized : s.initialized = true
  existing : s.existing = existing
  avoid : s.avoidEnabled = avoid

theorem Configured.quiet {s t : RsmSharedState n m} {existing : Vec m} {avoid : Bool}
    (h : Configured s existing avoid) (heff : QuietEffect s t) : Configured t existing avoid := by
  cases heff <;> exact ⟨h.initialized, h.existing, h.avoid⟩

theorem Configured.trySatisfyWaiting {s : RsmSharedState n m} {existing : Vec m} {avoid : Bool}
    (h : Configured s existing avoid) : Configured (trySatisfyWaiting s) existing avoid :=
  trySatisfyWaiting_preserves (P := fun t => Configured t existing avoid)
    (fun _ _ _ _ _ ht => ⟨ht.initialized, ht.existing, ht.avoid⟩) h

theorem Reachable.configured {exist : Vec m} {avoid : Bool} {sys : System n m}
    (h : Reachable (initialState n m exist avoid) sys) : Configured sys.shared exist avoid := by
  refine h.shared_induction (P := fun t => Configured t exist avoid) ⟨rfl, rfl, rfl⟩
    fun s t heff hs => ?_
  -- a rescan follows an end and a release
  cases heff with
  | quiet hquiet => exact hs.quiet hquiet
  | ended a _ _ =>
    have hend : Configured (endProcess s a) exist avoid := ⟨hs.initialized, hs.existing, hs.avoid⟩
    exact hend.trySatisfyWaiting
  | released a rel _ _ _ _ =>
    have hback : Configured (giveBack s a rel) exist avoid :=
      ⟨hs.initialized, hs.existing, hs.avoid⟩
    exact hback.trySatisfyWaiting

/-- What a process that makes a call can count on. -/
structure Caller (existing : Vec m) (avoid : Bool) (pid : Int) (s : RsmSharedState n m)
    (i : Fin n) (l : Ledger m) : Prop extends Agrees pid s i l, Configured s existing avoid where
  resource : ResourceInv s
  idle : s.waiting i = false
  sole : ∀ b, s.started b = true → s.apidToPid b = pid → b = i

section Caller

variable {existing : Vec m} {avoid : Bool} {pid : Int} {s : RsmSharedState n m} {i : Fin n}
  {l l' : Ledger m}

theorem Caller.allocation (h : Caller existing avoid pid s i l) (j : Fin m) :
    s.allocation i j = l.held j := by
  have h₁ := h.held j
  have h₂ := h.resource.idle_request h.idle j
  omega

/-- The caller is found under its id. -/
theorem Caller.current (h : Caller existing avoid pid s i l) (hstarted : l.started = true)
    (g : Option (Fin n)) : ∃ g', currentApidLocked s pid g = (some i, g') := by
  have hst : s.started i = true := by rw [h.started, hstarted]
  have hown : s.apidToPid i = pid := by rw [h.owner, hstarted, if_pos rfl]
  obtain ⟨b, hb⟩ := currentApidLocked_isSome hst hown g
  obtain ⟨hbst, hbown⟩ := currentApidLocked_owner hb
  obtain rfl := h.sole b hbst hbown
  exact ⟨_, Prod.ext hb rfl⟩

/-- The call of a process is not refused, and its row is the ledger's. -/
def Accepts (pid : Int) (i : Fin n) (l' : Ledger m) (r : Result n m) : Prop :=
  (r.outcome = .ret 0 ∨ r.outcome = .sleeping i) ∧ Agrees pid r.shared i l'

theorem Caller.processStarted (h : Caller existing avoid pid s i l) (g : Option (Fin n))
    {a : Int} (hnext : l.next avoid existing i (.processStarted a) = some l') :
    Accepts pid i l' (rsmProcessStarted pid g s a) := by
  simp only [Ledger.next, Option.ite_none_right_eq_some, Option.some.injEq] at hnext
  obtain ⟨⟨rfl, hnew⟩, rfl⟩ := hnext
  obtain rfl := h.outside hnew
  -- the checks of the call
  have hfree : s.started i = false := h.started
  have hrun : rsmProcessStarted pid g s i = ⟨.ret 0, startProcess s pid i, some i⟩ := by
    simp [rsmProcessStarted, h.initialized, hfree]
  rw [hrun]
  refine ⟨.inl rfl, by simp [startProcess], by simp [startProcess],
    by simp [startProcess, Ledger.outside], by simp [startProcess, Ledger.outside], h.claim,
    fun j => ?_, by simp⟩
  simpa [startProcess] using h.allocation j

theorem Caller.processEnded (h : Caller existing avoid pid s i l) (g : Option (Fin n))
    (hnext : l.next avoid existing i .processEnded = some l') :
    Accepts pid i l' (rsmProcessEnded pid g s) := by
  simp only [Ledger.next, Option.ite_none_right_eq_some, Option.some.injEq] at hnext
  obtain ⟨hstarted, rfl⟩ := hnext
  -- the process is registered under its id
  obtain ⟨g', hcur⟩ := h.current hstarted g
  have hactive : s.active i = true := by rw [← h.resource.started_eq i, h.started, hstarted]
  have hrun : rsmProcessEnded pid g s = ⟨.ret 0, trySatisfyWaiting (endProcess s i), none⟩ := by
    simp [rsmProcessEnded, hcur, hactive]
  rw [hrun]
  refine ⟨.inl rfl, Agrees.trySatisfyWaiting ?_ (by simp [endProcess])⟩
  constructor <;> simp [endProcess, Ledger.outside]
  exact fun _ => rfl

theorem Caller.claimCall (h : Caller existing avoid pid s i l) (g : Option (Fin n)) {v : Vec m}
    (hnext : l.next avoid existing i (.claim v) = some l') :
    Accepts pid i l' (rsmClaim pid g s v) := by
  simp only [Ledger.next, Option.ite_none_right_eq_some] at hnext
  obtain ⟨⟨hstarted, hnonneg⟩, hnext⟩ := hnext
  -- the process is registered under its id
  obtain ⟨g', hcur⟩ := h.current hstarted g
  have hst : s.started i = true := h.started.trans hstarted
  have hvalid : validateVectorBounds v = true := by simpa [validateVectorBounds] using hnonneg
  cases hav : avoid with
  -- in detection mode a claim changes nothing
  | false =>
    obtain rfl : l = l' := by simpa [hav] using hnext
    have hrun : rsmClaim pid g s v = ⟨.ret 0, s, g'⟩ := by
      simp [rsmClaim, hvalid, hcur, hst, h.avoid, hav]
    rw [hrun]
    exact ⟨.inl rfl, h.toAgrees⟩
  -- in avoidance mode it is the first one, and not above what exists
  | true =>
    simp only [hav, if_true, Option.ite_none_right_eq_some, Option.some.injEq] at hnext
    obtain ⟨⟨hnew, hfirst, hle⟩, rfl⟩ := hnext
    have hle' : ¬ ∃ j, v j > s.existing j := by
      push Not
      rwa [h.existing]
    have hrun : rsmClaim pid g s v = ⟨.ret 0, recordClaim s i v, g'⟩ := by
      simp [rsmClaim, hvalid, hcur, hst, h.avoid, hav, h.claimed, hnew, h.requested, hfirst, hle']
    rw [hrun]
    refine ⟨.inl rfl, h.started, h.owner, by simp [recordClaim], h.requested,
      by simp [recordClaim], h.held, fun hout => ?_⟩
    rw [hstarted] at hout
    exact absurd hout (by simp)

theorem Caller.requestCall (h : Caller existing avoid pid s i l) (g : Option (Fin n)) {v : Vec m}
    (hnext : l.next avoid existing i (.request v) = some l') :
    Accepts pid i l' (rsmRequest pid g s v) := by
  simp only [Ledger.next, Option.ite_none_right_eq_some, Option.some.injEq] at hnext
  obtain ⟨⟨hstarted, hnonneg, hexist, hclaim⟩, rfl⟩ := hnext
  obtain ⟨g', hcur⟩ := h.current hstarted g
  have hactive : s.active i = true := by rw [← h.resource.started_eq i, h.started, hstarted]
  have hvalid : validateVectorBounds v = true := by simpa [validateVectorBounds] using hnonneg
  have halloc := h.allocation
  -- the checks against `existing` and `need`, from the ledger's own
  have hle : ¬ ∃ j, v j > s.existing j := by
    push Not
    intro j
    have h₁ := hexist j
    have h₂ := h.resource.allocation_nonneg i j
    have h₃ := halloc j
    rw [h.existing]
    omega
  have hcl : (s.avoidEnabled && !s.claimed i) = false := by
    cases hav : avoid with
    | false => rw [h.avoid, hav, Bool.false_and]
    | true => rw [h.claimed, (hclaim hav).1, Bool.not_true, Bool.and_false]
  have hneed : ¬ (s.avoidEnabled = true ∧ ∃ j, v j > s.need i j) := by
    rintro ⟨hav, j, hj⟩
    have h₁ := (hclaim (h.avoid ▸ hav)).2 j
    have h₂ : s.need i j + s.allocation i j = s.maxDemand i j :=
      (h.resource.rows i).demand hav j
    have h₃ := congrFun (h.claim hav) j
    have h₄ := halloc j
    omega
  have hout : ∀ {t}, t = { l with requested := true, held := fun j => l.held j + v j } →
      t.started = false → t = Ledger.outside := by
    rintro t rfl ht
    exact absurd (hstarted.symm.trans ht) (by simp)
  have hrun : rsmRequest pid g s v =
        ⟨.ret 0, Rsm.grant (recordRequest s i v) i v, g'⟩ ∨
      rsmRequest pid g s v = ⟨.sleeping i, setWaiting (recordRequest s i v) i, g'⟩ := by
    simp only [rsmRequest, hvalid, hcur, hactive, hcl, Bool.not_true, Bool.false_eq_true,
      if_false, if_neg hle, if_neg hneed]
    split
    · exact .inl rfl
    · exact .inr rfl
  rcases hrun with hrun | hrun <;> rw [hrun]
  · refine ⟨.inl rfl, h.started, h.owner, h.claimed, by simp [Rsm.grant, recordRequest], h.claim,
      fun j => ?_, hout rfl⟩
    simp [Rsm.grant, recordRequest, halloc j]
  · refine ⟨.inr rfl, h.started, h.owner, h.claimed, by simp [setWaiting, recordRequest], h.claim,
      fun j => ?_, hout rfl⟩
    simp [setWaiting, recordRequest, halloc j]

theorem Caller.releaseCall (h : Caller existing avoid pid s i l) (g : Option (Fin n)) {v : Vec m}
    (hnext : l.next avoid existing i (.release v) = some l') :
    Accepts pid i l' (rsmRelease pid g s v) := by
  simp only [Ledger.next, Option.ite_none_right_eq_some, Option.some.injEq] at hnext
  obtain ⟨⟨hstarted, hnonneg, hle⟩, rfl⟩ := hnext
  -- the process is registered under its id
  obtain ⟨g', hcur⟩ := h.current hstarted g
  have hactive : s.active i = true := by rw [← h.resource.started_eq i, h.started, hstarted]
  have hvalid : validateVectorBounds v = true := by simpa [validateVectorBounds] using hnonneg
  have hle' : ¬ ∃ j, v j > s.allocation i j := by
    push Not
    intro j
    rw [h.allocation]
    exact hle j
  have hrun : rsmRelease pid g s v = ⟨.ret 0, trySatisfyWaiting (giveBack s i v), g'⟩ := by
    simp [rsmRelease, hvalid, hcur, hactive, hle']
  rw [hrun]
  refine ⟨.inl rfl, Agrees.trySatisfyWaiting ?_ h.idle⟩
  refine ⟨h.started, h.owner, h.claimed, h.requested, h.claim, fun j => ?_, fun hout => ?_⟩
  · -- what is held goes down by what is released
    have := h.held j
    simp only [giveBack, Function.update_self]
    omega
  · rw [hstarted] at hout
    exact absurd hout (by simp)

/-- **The library accepts every call its ledger permits.** -/
theorem Caller.accepted (h : Caller existing avoid pid s i l) (g : Option (Fin n)) {c : Call m}
    (hnext : l.next avoid existing i c = some l') : Accepts pid i l' (c.run pid g s) := by
  cases c with
  | processStarted a => exact h.processStarted g hnext
  | processEnded => exact h.processEnded g hnext
  | claim v => exact h.claimCall g hnext
  | request v => exact h.requestCall g hnext
  | release v => exact h.releaseCall g hnext

end Caller

end OsProjects.Rsm
