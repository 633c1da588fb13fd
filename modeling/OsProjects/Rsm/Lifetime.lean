import OsProjects.Rsm.Progress
import OsProjects.Rsm.Segment

/-!
# Resource manager — the life of a segment

`WorldInv` is the invariant of a world that is not at fault. The name stands for the only
object that is under construction or in use; one process builds it; a process that has not
mapped it in use has no `g_local_apid` and does not sleep, so that a new segment begins with
the system of `rsm_init`; and what a process has open and mapped is its segment and the one
it is building, on every path through `rsm_init`.

Every act replaces one process (`WorldInv.replace`) and at most the one object that is
under construction or in use (`WorldInv.settle`). `Moved` lists the acts once, for the
invariant and for `Tidy`, which holds of programs that are `Careful`.

**Main result** (`segments_refine`): in every run the segment in use is one `rsm_init` has
accepted, and what happened to it is a run of `System`.
-/

namespace OsProjects.Rsm

/-! ## The invariant -/

/-- The process has no application id, and does not sleep. -/
def Proc.Fresh (p : Proc) : Prop := p.gLocalApid = none ∧ ∀ a, p.activity ≠ .asleep a

/-- The process is in `rsm_init`, for the object `o`. -/
def Proc.Builds (p : Proc) (o : Nat) (seg : Segment) : Prop :=
  p.gone = false ∧ ∃ stage, p.activity = .building o seg stage

/-- The handle of a segment. -/
def handle (o : Option Nat) : Multiset Nat := o.elim 0 fun o => {o}

/-- The descriptor `created_fd`. -/
def Activity.fds : Activity → Multiset Nat
  | .building o _ _ => {o}
  | _ => 0

/-- The mapping `mapped`. -/
def Activity.maps : Activity → Multiset Nat
  | .building o _ (.mapped _) => {o}
  | _ => 0

structure ProcOk (objects : Nat → Option Object) (p : Proc) : Prop where
  fd : p.gShmFd = p.gState
  made : ∀ o, p.gState = some o → (objects o).isSome
  unmapped : p.gState = none → p.Fresh
  early : ∀ o, p.gState = some o → objects o = some .building → p.Fresh
  fds : p.gone = false → p.fds = handle p.gState + p.activity.fds
  maps : p.gone = false → p.maps = handle p.gState + p.activity.maps

/-- `rsm_init` has accepted the arguments. -/
def Segment.Initial (seg : Segment) : Prop :=
  ∃ exist avoid, rsmInit seg.processCount seg.resourceCount exist avoid = some seg.shared

/-- What happened to the segment is a run of the system that `rsm_init` begins with. -/
def Refines (w : World) (o : Nat) (seg : Segment) : Prop :=
  ∃ exist avoid s₀, rsmInit seg.processCount seg.resourceCount exist avoid = some s₀ ∧
    Reachable s₀ (w.view o seg)

structure SegmentOk (w : World) (o : Nat) (seg : Segment) : Prop where
  refines : Refines w o seg
  /-- Who has started was there. -/
  owners : ∀ a, seg.shared.started a = true → (w.procs (seg.shared.apidToPid a)).isSome

structure WorldInv (w : World) : Prop where
  unmade : ∀ o, w.count ≤ o → w.objects o = none
  named : ∀ o, w.name = some o → (w.objects o).isSome
  live_named : ∀ o seg, w.objects o = some (.live seg) → w.name = some o
  building_named : ∀ o, w.objects o = some .building → w.name = some o
  builds : ∀ pid p o seg, w.procs pid = some p → p.Builds o seg →
    w.objects o = some .building ∧ seg.Initial
  sole : ∀ pid pid' p p' o seg seg', w.procs pid = some p → w.procs pid' = some p' →
    p.Builds o seg → p'.Builds o seg' → pid = pid'
  procs : ∀ pid p, w.procs pid = some p → ProcOk w.objects p
  segments : ∀ o seg, w.objects o = some (.live seg) → SegmentOk w o seg

/-! ## Views -/

section Views

variable {w : World} {pid : Int} {p : Proc} {o n : Nat} {seg : Segment}

theorem view_setProc (w : World) (pid : Int) (p : Proc) (o : Nat) (seg : Segment) :
    (w.setProc pid p).view o seg =
      { shared := seg.shared
        gLocalApid := Function.update (w.view o seg).gLocalApid pid
          (p.at o seg.processCount.toNat).1
        asleep := Function.update (w.view o seg).asleep pid
          (p.at o seg.processCount.toNat).2 } := by
  -- field by field of the processes
  have hjoin {α : Type} (f : Proc → Option α) (pid' : Int) :
      ((Function.update w.procs pid (some p) pid').map f).join =
        Function.update (fun pid => ((w.procs pid).map f).join) pid (f p) pid' := by
    by_cases heq : pid' = pid
    · subst heq
      rw [Function.update_self, Function.update_self]
      rfl
    · rw [Function.update_of_ne heq, Function.update_of_ne heq]
  simp only [World.view, World.setProc, System.mk.injEq]
  exact ⟨trivial, funext fun _ => hjoin _ _, funext fun _ => hjoin _ _⟩

theorem view_of_proc (hp : w.procs pid = some p) (o : Nat) (seg : Segment) :
    ((w.view o seg).gLocalApid pid, (w.view o seg).asleep pid) =
      p.at o seg.processCount.toNat := by
  simp [World.view, hp]

theorem view_of_none (hp : w.procs pid = none) (o : Nat) (seg : Segment) :
    ((w.view o seg).gLocalApid pid, (w.view o seg).asleep pid) = (none, none) := by
  simp [World.view, hp]

/-- A process that stays what it is to the segment. -/
theorem view_setProc_same {p' : Proc} (hp : w.procs pid = some p)
    (hsame : p'.at o seg.processCount.toNat = p.at o seg.processCount.toNat) :
    (w.setProc pid p').view o seg = w.view o seg := by
  have hview := view_of_proc hp o seg
  rw [view_setProc, hsame, ← hview, Function.update_eq_self, Function.update_eq_self]
  rfl

theorem at_fresh (h : p.Fresh) (o n : Nat) : p.at o n = (none, none) := by
  have hcache : p.cached n = none := by rw [Proc.cached, h.1]; rfl
  have hsleep : p.sleepsOn n = none := by
    cases hact : p.activity with
    | asleep a => exact absurd hact (h.2 a)
    | _ => simp [Proc.sleepsOn, hact]
  simp [Proc.at, hcache, hsleep]

theorem at_mapped (h : p.gState = some o) (n : Nat) : p.at o n = (p.cached n, p.sleepsOn n) :=
  if_pos h

end Views

/-! ## One process changes -/

section Replace

variable {w w' : World} {pid : Int} {p p' : Proc} {o : Nat} {seg : Segment}

/-- The objects only ever go forward. -/
structure Forward (objects objects' : Nat → Option Object) : Prop where
  grow : ∀ o, (objects o).isSome → (objects' o).isSome
  early : ∀ o, (objects o).isSome → objects' o = some .building → objects o = some .building

theorem Forward.refl (objects : Nat → Option Object) : Forward objects objects :=
  ⟨fun _ h => h, fun _ _ h => h⟩

theorem ProcOk.mono {objects objects' : Nat → Option Object} (h : ProcOk objects p)
    (hforward : Forward objects objects') : ProcOk objects' p where
  fd := h.fd
  made o ho := hforward.grow o (h.made o ho)
  unmapped := h.unmapped
  early o ho hbuilding := h.early o ho (hforward.early o (h.made o ho) hbuilding)
  fds := h.fds
  maps := h.maps

/-- One process is replaced, and the objects go forward. -/
theorem WorldInv.replace (h : WorldInv w)
    (hprocs : w'.procs = Function.update w.procs pid (some p'))
    (hforward : Forward w.objects w'.objects) (hok : ProcOk w'.objects p')
    (hunmade : ∀ o, w'.count ≤ o → w'.objects o = none)
    (hnamed : ∀ o, w'.name = some o → (w'.objects o).isSome)
    (hlive : ∀ o seg, w'.objects o = some (.live seg) → w'.name = some o)
    (hbuilding : ∀ o, w'.objects o = some .building → w'.name = some o)
    (hself : ∀ o seg, p'.Builds o seg → w'.objects o = some .building ∧ seg.Initial ∧
      ∀ pid' q seg', pid' ≠ pid → w.procs pid' = some q → ¬ q.Builds o seg')
    (hothers : ∀ pid' q o seg, pid' ≠ pid → w.procs pid' = some q → q.Builds o seg →
      w'.objects o = some .building)
    (hsegments : ∀ o seg, w'.objects o = some (.live seg) → SegmentOk w' o seg) :
    WorldInv w' := by
  -- a process of `w'` is the one replaced, or was there before
  have hcases : ∀ pid' q, w'.procs pid' = some q →
      pid' = pid ∧ q = p' ∨ pid' ≠ pid ∧ w.procs pid' = some q := by
    intro pid' q hq
    rw [hprocs] at hq
    by_cases heq : pid' = pid
    · subst heq
      rw [Function.update_self] at hq
      exact .inl ⟨rfl, (Option.some.inj hq).symm⟩
    · rw [Function.update_of_ne heq] at hq
      exact .inr ⟨heq, hq⟩
  refine ⟨hunmade, hnamed, hlive, hbuilding, fun pid' q o seg hq hb => ?_,
    fun pid₁ pid₂ q₁ q₂ o seg₁ seg₂ hq₁ hq₂ hb₁ hb₂ => ?_, fun pid' q hq => ?_, hsegments⟩
  · -- who builds
    rcases hcases pid' q hq with ⟨rfl, rfl⟩ | ⟨hne, hold⟩
    · exact ⟨(hself o seg hb).1, (hself o seg hb).2.1⟩
    · exact ⟨hothers pid' q o seg hne hold hb, (h.builds pid' q o seg hold hb).2⟩
  · -- one builder for an object
    rcases hcases pid₁ q₁ hq₁ with ⟨rfl, rfl⟩ | ⟨hne₁, hold₁⟩
    · rcases hcases pid₂ q₂ hq₂ with ⟨rfl, -⟩ | ⟨hne₂, hold₂⟩
      · rfl
      · exact absurd hb₂ ((hself o seg₁ hb₁).2.2 pid₂ q₂ seg₂ hne₂ hold₂)
    · rcases hcases pid₂ q₂ hq₂ with ⟨rfl, rfl⟩ | ⟨-, hold₂⟩
      · exact absurd hb₁ ((hself o seg₂ hb₂).2.2 pid₁ q₁ seg₁ hne₁ hold₁)
      · exact h.sole pid₁ pid₂ q₁ q₂ o seg₁ seg₂ hold₁ hold₂ hb₁ hb₂
  · -- what each process has open
    rcases hcases pid' q hq with ⟨-, rfl⟩ | ⟨-, hold⟩
    · exact hok
    · exact (h.procs pid' q hold).mono hforward

/-- A process that stays what it is to every segment. -/
theorem WorldInv.setProc (h : WorldInv w) (hp : w.procs pid = some p) (hok : ProcOk w.objects p')
    (hsame : ∀ o seg, w.objects o = some (.live seg) → ∀ n, p'.at o n = p.at o n)
    (hbuilds : ∀ o seg, p'.Builds o seg → p.Builds o seg) : WorldInv (w.setProc pid p') := by
  refine h.replace rfl (Forward.refl w.objects) hok h.unmade h.named h.live_named
    h.building_named (fun o seg hb => ?_)
    (fun pid' q o seg _ hq hb => (h.builds pid' q o seg hq hb).1) fun o seg hlive => ?_
  · -- whoever builds now was building, and alone
    obtain ⟨hbuilding, hinitial⟩ := h.builds pid p o seg hp (hbuilds o seg hb)
    exact ⟨hbuilding, hinitial, fun pid' q seg' hne hq hb' =>
      hne (h.sole pid' pid q p o seg' seg hq hp hb' (hbuilds o seg hb))⟩
  · -- the run behind each segment is the one of before
    obtain ⟨⟨exist, avoid, s₀, hinit, hreach⟩, howners⟩ := h.segments o seg hlive
    refine ⟨⟨exist, avoid, s₀, hinit, ?_⟩, fun a ha => ?_⟩
    · rw [view_setProc_same hp (hsame o seg hlive _)]
      exact hreach
    · show (Function.update w.procs pid (some p') _).isSome
      -- whoever owns a row is a process, the replaced one or another
      by_cases heq : seg.shared.apidToPid a = pid
      · rw [heq, Function.update_self]
        rfl
      · rw [Function.update_of_ne heq]
        exact howners a ha

end Replace

/-! ## Steps that leave the objects alone -/

section Quiet

variable {w : World} {pid : Int} {p : Proc}

theorem not_builds_awake {p : Proc} (h : p.activity = .awake) (o : Nat) (seg : Segment) :
    ¬ p.Builds o seg := by
  rintro ⟨-, stage, hstage⟩
  rw [h] at hstage
  exact Activity.noConfusion hstage

theorem not_asleep_awake {p : Proc} (h : p.activity = .awake) (a : Nat) :
    p.activity ≠ .asleep a := by
  rw [h]
  exact Activity.noConfusion

theorem WorldInv.exit (h : WorldInv w) (hp : w.procs pid = some p) :
    WorldInv (w.setProc pid { p with fds := 0, maps := 0, gone := true }) := by
  have hok := h.procs pid p hp
  refine h.setProc hp
    ⟨hok.fd, hok.made, hok.unmapped, hok.early, fun hgone => ?_, fun hgone => ?_⟩
    (fun _ _ _ _ => rfl) fun o seg hb => ?_
  · exact absurd hgone (by simp)
  · exact absurd hgone (by simp)
  · exact absurd hb.1 (by simp)

theorem mapExistingState_cases (hstate : p.gState = none) (hfd : p.gShmFd = none)
    (name : Option Nat) (opens maps : Bool) :
    p.mapExistingState name opens maps = p ∨ ∃ o, name = some o ∧
      p.mapExistingState name opens maps =
        { p with
          gState := some o, gShmFd := some o, fds := o ::ₘ p.fds, maps := o ::ₘ p.maps } := by
  -- a `shm_open` that fails leaves the descriptor at -1
  have hsame : { p with gShmFd := none } = p := by rw [← hfd]
  unfold Proc.mapExistingState
  rw [if_neg (by simp [hstate])]
  cases name with
  | none => exact .inl hsame
  | some o =>
    cases opens with
    | false => exact .inl hsame
    | true =>
      cases maps with
      | false => exact .inl hsame
      | true => exact .inr ⟨o, rfl, rfl⟩

/-- `map_existing_state`. -/
theorem WorldInv.map (h : WorldInv w) (hp : w.procs pid = some p) (hawake : p.activity = .awake)
    (opens maps : Bool) : WorldInv (w.setProc pid (p.mapExistingState w.name opens maps)) := by
  have hok := h.procs pid p hp
  have hsame : WorldInv (w.setProc pid p) :=
    h.setProc hp hok (fun _ _ _ _ => rfl) fun _ _ hb => hb
  by_cases hmapped : p.gState.isSome
  · unfold Proc.mapExistingState
    rw [if_pos hmapped]
    exact hsame
  · -- the one case in which something is mapped: the object of the name
    have hstate : p.gState = none := Option.not_isSome_iff_eq_none.mp hmapped
    rcases mapExistingState_cases hstate (hok.fd.trans hstate) w.name opens maps with
      heq | ⟨o, hname, heq⟩
    · rw [heq]
      exact hsame
    · rw [heq]
      have hfresh := hok.unmapped hstate
      have hnew : ({ p with
          gState := some o, gShmFd := some o, fds := o ::ₘ p.fds, maps := o ::ₘ p.maps } :
            Proc).Fresh := hfresh
      refine h.setProc hp ⟨rfl, fun o' ho' => ?_, fun hnone => absurd hnone (by simp),
        fun _ _ _ => hfresh, fun hgone => ?_, fun hgone => ?_⟩ (fun o' seg _ n => ?_)
        fun o' seg hb => absurd hb (not_builds_awake hawake o' seg)
      · -- the object that is mapped exists
        obtain rfl := Option.some.inj ho'
        exact h.named o hname
      · -- one descriptor more, of that object
        show o ::ₘ p.fds = {o} + p.activity.fds
        rw [hok.fds hgone, hstate]
        exact congrArg (o ::ₘ ·) (zero_add _)
      · -- one mapping more
        show o ::ₘ p.maps = {o} + p.activity.maps
        rw [hok.maps hgone, hstate]
        exact congrArg (o ::ₘ ·) (zero_add _)
      · -- no call has been made through it, so the system sees no change
        rw [at_fresh hnew, at_fresh hfresh]

/-- `fork`. -/
theorem WorldInv.fork (h : WorldInv w) (hp : w.procs pid = some p) (hawake : p.activity = .awake)
    {child : Int} (hchild : w.procs child = none) : WorldInv (w.setProc child p) := by
  refine h.replace rfl (Forward.refl w.objects) (h.procs pid p hp) h.unmade h.named h.live_named
    h.building_named (fun o seg hb => absurd hb (not_builds_awake hawake o seg))
    (fun pid' q o seg _ hq hb => (h.builds pid' q o seg hq hb).1) fun o seg hlive => ?_
  obtain ⟨⟨exist, avoid, s₀, hinit, hreach⟩, howners⟩ := h.segments o seg hlive
  have hparent := view_of_proc hp o seg
  have hnone := view_of_none hchild o seg
  -- the parent is in no call, and so the child sleeps on nothing
  have hsleep : (p.at o seg.processCount.toNat).2 = none := by
    unfold Proc.at Proc.sleepsOn
    rw [hawake]
    split <;> rfl
  -- no row belongs to the new pid: its owner would be a process
  have hunused : ∀ a, seg.shared.started a = true → seg.shared.apidToPid a ≠ child :=
    fun a ha heq => by
      have hsome := howners a ha
      rw [heq, hchild] at hsome
      exact absurd hsome (by simp)
  refine ⟨⟨exist, avoid, s₀, hinit, ?_⟩, fun a ha => ?_⟩
  · -- in the system the step is a fork
    have hstep : (w.setProc child p).view o seg = (w.view o seg).fork pid child := by
      have hold : (w.view o seg).asleep child = none := congrArg Prod.snd hnone
      rw [view_setProc, hsleep, ← hold, Function.update_eq_self, ← hparent]
      rfl
    rw [hstep]
    refine .step hreach (.fork ?_ (congrArg Prod.snd hnone) hunused)
    exact (congrArg Prod.snd hparent).trans hsleep
  · show (Function.update w.procs child (some p) _).isSome
    rw [Function.update_of_ne (hunused a ha)]
    exact howners a ha

/-- `rsm_init` goes on in its private part. -/
theorem WorldInv.stage (h : WorldInv w) (hp : w.procs pid = some p) (hgone : p.gone = false)
    {o : Nat} {seg : Segment} {stage stage' : Stage} {maps : Multiset Nat}
    (hact : p.activity = .building o seg stage)
    (hmaps : maps = handle p.gState + (Activity.building o seg stage').maps) :
    WorldInv (w.setProc pid { p with activity := .building o seg stage', maps := maps }) := by
  have hok := h.procs pid p hp
  -- an `rsm_init` does not sleep
  have hawake : ∀ a, Activity.building o seg stage' ≠ .asleep a := fun _ => Activity.noConfusion
  refine h.setProc hp ⟨hok.fd, hok.made, fun hnone => ⟨(hok.unmapped hnone).1, hawake⟩,
    fun o' ho' hb => ⟨(hok.early o' ho' hb).1, hawake⟩, fun _ => ?_, fun _ => hmaps⟩
    (fun o' seg' _ n => ?_) fun o' seg' hb => ?_
  · -- the descriptors do not depend on the stage
    rw [hok.fds hgone, hact]
    rfl
  · -- nor does what the system sees
    unfold Proc.at Proc.cached Proc.sleepsOn
    rw [hact]
  · -- the builder is the same
    obtain ⟨stage'', heq⟩ := hb.2
    injection heq with ho hseg hstage
    exact ⟨hgone, stage, by rw [hact, ho, hseg]⟩

end Quiet

/-! ## Steps that change an object -/

section Objects

variable {w : World} {pid : Int} {p : Proc} {o : Nat} {seg : Segment}

theorem objects_setObject (w : World) (o : Nat) (obj : Object) (o' : Nat) :
    (w.setObject o obj).objects o' = if o' = o then some obj else w.objects o' :=
  Function.update_apply ..

/-- The object of the name is replaced by one that is not under construction. -/
theorem Forward.set {obj : Object} (hobj : obj ≠ .building) :
    Forward w.objects (w.setObject o obj).objects where
  grow o' ho' := by
    rw [objects_setObject]
    split
    · rfl
    · exact ho'
  early o' _ hb := by
    rw [objects_setObject] at hb
    split at hb
    · exact absurd (Option.some.inj hb) hobj
    · exact hb

/-- While the name stands for an object that is under construction or in use, no other is. -/
theorem WorldInv.only (h : WorldInv w) {obj : Object} (ho : w.objects o = some obj)
    (hobj : obj ≠ .destroyed) {o' : Nat} {obj' : Object} (ho' : w.objects o' = some obj')
    (hobj' : obj' ≠ .destroyed) : o' = o := by
  have hname : ∀ {o : Nat} {obj : Object}, w.objects o = some obj → obj ≠ .destroyed →
      w.name = some o := by
    intro o obj ho hobj
    cases obj with
    | building => exact h.building_named o ho
    | live seg => exact h.live_named o seg ho
    | destroyed => exact absurd rfl hobj
  exact Option.some.inj ((hname ho' hobj').symm.trans (hname ho hobj))

theorem WorldInv.made_lt (h : WorldInv w) (ho : (w.objects o).isSome) : o < w.count := by
  by_contra hle
  rw [h.unmade o (Nat.le_of_not_lt hle)] at ho
  exact absurd ho (by simp)

/-- `rsm_init` has made the object. -/
theorem WorldInv.create (h : WorldInv w) (hp : w.procs pid = some p) (hawake : p.activity = .awake)
    (hgone : p.gone = false) (hname : w.name = none) (hinitial : seg.Initial) :
    WorldInv { (w.setObject w.count .building).setProc pid { p with
        activity := .building w.count seg .opened
        fds := w.count ::ₘ p.fds } with
      name := some w.count
      count := w.count + 1 } := by
  have hok := h.procs pid p hp
  have hnew : w.objects w.count = none := h.unmade w.count (Nat.le_refl _)
  -- no object is under construction or in use
  have hidle : ∀ o obj, w.objects o = some obj → obj = .destroyed := by
    intro o obj ho
    cases obj with
    | building => exact absurd ((h.building_named o ho).symm.trans hname) (by simp)
    | live seg => exact absurd ((h.live_named o seg ho).symm.trans hname) (by simp)
    | destroyed => rfl
  have hobjects : ∀ o obj, (w.setObject w.count .building).objects o = some obj →
      o = w.count ∧ obj = .building ∨ obj = .destroyed := by
    intro o obj ho
    rw [objects_setObject] at ho
    split at ho
    · next heq => exact .inl ⟨heq, (Option.some.inj ho).symm⟩
    · exact .inr (hidle o obj ho)
  have hmade : ∀ o, (w.objects o).isSome → o ≠ w.count := fun o ho heq => by
    rw [heq, hnew] at ho
    exact absurd ho (by simp)
  have hforward : Forward w.objects (w.setObject w.count .building).objects := by
    refine ⟨fun o ho => ?_, fun o ho hb => ?_⟩
    · rw [objects_setObject, if_neg (hmade o ho)]
      exact ho
    · rwa [objects_setObject, if_neg (hmade o ho)] at hb
  have hawake' : ∀ a, Activity.building w.count seg .opened ≠ .asleep a :=
    fun _ => Activity.noConfusion
  have hself : (w.setObject w.count .building).objects w.count = some .building :=
    Function.update_self ..
  refine h.replace rfl hforward ⟨hok.fd, fun o ho => hforward.grow o (hok.made o ho),
    fun hnone => ⟨(hok.unmapped hnone).1, hawake'⟩, fun o ho hb => ?_, fun _ => ?_, fun _ => ?_⟩
    (fun o ho => ?_) (fun o ho => ?_) (fun o seg' ho => ?_) (fun o ho => ?_) (fun o seg' hb => ?_)
    (fun pid' q o seg' _ hq hb => ?_) fun o seg' ho => ?_
  · exact ⟨(hok.early o ho (hforward.early o (hok.made o ho) hb)).1, hawake'⟩
  · show w.count ::ₘ p.fds = handle p.gState + {w.count}
    rw [hok.fds hgone, hawake, show Activity.awake.fds = 0 from rfl, add_zero,
      ← Multiset.singleton_add, add_comm]
  · show p.maps = handle p.gState + 0
    rw [hok.maps hgone, hawake]
    rfl
  · have hne : o ≠ w.count := Nat.ne_of_gt ho
    show (w.setObject w.count .building).objects o = none
    rw [objects_setObject, if_neg hne]
    exact h.unmade o (Nat.le_of_succ_le ho)
  · obtain rfl := Option.some.inj ho
    show ((w.setObject w.count .building).objects w.count).isSome
    rw [hself]
    rfl
  · rcases hobjects o _ ho with ⟨-, heq⟩ | heq
    · exact Object.noConfusion heq
    · exact Object.noConfusion heq
  · rcases hobjects o _ ho with ⟨rfl, -⟩ | heq
    · rfl
    · exact Object.noConfusion heq
  · obtain ⟨stage, heq⟩ := hb.2
    injection heq with ho hseg
    subst ho hseg
    refine ⟨hself, hinitial, fun pid' q seg' _ hq hb' => ?_⟩
    -- the others build older objects
    have hold := (h.builds pid' q w.count seg' hq hb').1
    rw [hnew] at hold
    exact absurd hold (by simp)
  · have hold := (h.builds pid' q o seg' hq hb).1
    exact absurd (hidle o _ hold) (by simp)
  · rcases hobjects o _ ho with ⟨-, heq⟩ | heq
    · exact Object.noConfusion heq
    · exact Object.noConfusion heq

/-- The object under construction or in use is replaced. What is then under construction or in use
is the new one. -/
theorem WorldInv.settled (h : WorldInv w) {old obj : Object} (ho : w.objects o = some old)
    (hold : old ≠ .destroyed) {o' : Nat} {obj' : Object}
    (ho' : (w.setObject o obj).objects o' = some obj') (hobj' : obj' ≠ .destroyed) :
    o' = o ∧ obj' = obj := by
  rw [objects_setObject] at ho'
  split at ho'
  · next heq => exact ⟨heq, (Option.some.inj ho').symm⟩
  · next hne => exact absurd (h.only ho hold ho' hobj') hne

/-- `rsm_init` ends, a call runs, or `rsm_destroy`. -/
theorem WorldInv.settle (h : WorldInv w) {old obj : Object} (ho : w.objects o = some old)
    (hold : old ≠ .destroyed) (hobj : obj ≠ .building) {p' : Proc} {name : Option Nat}
    (hname : name = w.name ∨ name = none ∧ obj = .destroyed)
    (hok : ProcOk (w.setObject o obj).objects p') (hdone : ∀ o seg, ¬ p'.Builds o seg)
    (hbuilt : ∀ pid' q seg, w.procs pid' = some q → q.Builds o seg → pid' = pid)
    (hsegment : ∀ seg, obj = .live seg →
      SegmentOk { (w.setObject o obj).setProc pid p' with name := name } o seg) :
    WorldInv { (w.setObject o obj).setProc pid p' with name := name } := by
  -- what existed still exists, and nothing goes back under construction
  have hforward : Forward w.objects (w.setObject o obj).objects := Forward.set hobj
  -- nothing is under construction any more
  have hbuilding : ∀ o', (w.setObject o obj).objects o' ≠ some .building := fun o' ho' =>
    hobj (h.settled ho hold ho' Object.noConfusion).2.symm
  -- it has the name, for both kinds of object that are not destroyed
  have hwas : w.name = some o := by
    cases old with
    | building => exact h.building_named o ho
    | live seg => exact h.live_named o seg ho
    | destroyed => exact absurd rfl hold
  refine h.replace rfl hforward hok (fun o' ho' => ?_) (fun o' ho' => ?_) (fun o' seg' ho' => ?_)
    (fun o' ho' => absurd ho' (hbuilding o')) (fun o' seg' hb => absurd hb (hdone o' seg'))
    (fun pid' q o' seg' hne hq hb => ?_) fun o' seg' ho' => ?_
  · -- no number is given out twice
    have hlt : o < w.count := h.made_lt (by rw [ho]; rfl)
    have hne : o' ≠ o := fun heq => by
      have hle : w.count ≤ o' := ho'
      omega
    show (w.setObject o obj).objects o' = none
    rw [objects_setObject, if_neg hne]
    exact h.unmade o' ho'
  · -- what the name stands for
    rcases hname with rfl | ⟨rfl, -⟩
    · exact hforward.grow o' (h.named o' ho')
    · exact absurd ho' (by simp)
  · -- the object in use is the one of the name
    obtain ⟨rfl, hlive⟩ := h.settled ho hold ho' Object.noConfusion
    rcases hname with rfl | ⟨-, rfl⟩
    · exact hwas
    · exact Object.noConfusion hlive
  · -- another process builds nothing: there is no other object
    have hbuilt' := (h.builds pid' q o' seg' hq hb).1
    obtain rfl := h.only ho hold hbuilt' Object.noConfusion
    exact absurd (hbuilt pid' q seg' hq hb) hne
  · -- what a segment needs is asked of the caller
    obtain ⟨rfl, hlive⟩ := h.settled ho hold ho' Object.noConfusion
    exact hsegment seg' hlive.symm

/-- Nobody builds an object that is in use. -/
theorem WorldInv.live_built (h : WorldInv w) (ho : w.objects o = some (.live seg)) :
    ∀ pid' q seg', w.procs pid' = some q → q.Builds o seg' → pid' = pid := by
  intro pid' q seg' hq hb
  have hbuilding := (h.builds pid' q o seg' hq hb).1
  rw [ho] at hbuilding
  exact absurd (Option.some.inj hbuilding) Object.noConfusion

/-- The error paths of `rsm_init`. -/
theorem WorldInv.giveUp (h : WorldInv w) (hp : w.procs pid = some p) (hgone : p.gone = false)
    {stage : Stage} (hact : p.activity = .building o seg stage) {mapped : Bool}
    (hmapped : p.activity.maps = if mapped then {o} else 0) (unlinks : Bool) :
    WorldInv (w.giveUp pid p o mapped unlinks) := by
  have hok := h.procs pid p hp
  have hb : p.Builds o seg := ⟨hgone, stage, hact⟩
  have ho := (h.builds pid p o seg hp hb).1
  have hold : Object.building ≠ .destroyed := Object.noConfusion
  have hawake : ∀ a, Activity.awake ≠ .asleep a := fun _ => Activity.noConfusion
  refine h.settle ho hold Object.noConfusion ?_ ⟨hok.fd, fun o' ho' => ?_,
    fun hnone => ⟨(hok.unmapped hnone).1, hawake⟩, fun o' ho' hb' => ?_, fun _ => ?_, fun _ => ?_⟩
    (not_builds_awake rfl) (fun pid' q seg' hq hb' => h.sole pid' pid q p o seg' seg hq hp hb' hb)
    fun seg' hseg' => Object.noConfusion hseg'
  · -- `shm_unlink` may fail on the way out
    cases unlinks with
    | true => exact .inr ⟨rfl, rfl⟩
    | false => exact .inl rfl
  · -- what was mapped is still there
    exact (Forward.set Object.noConfusion).grow o' (hok.made o' ho')
  · -- nobody else has an object under construction mapped
    exact Object.noConfusion (h.settled ho hold hb' Object.noConfusion).2
  · -- the descriptor of the object is closed
    show p.fds.erase o = handle p.gState + 0
    rw [hok.fds hgone, hact, show (Activity.building o seg stage).fds = {o} from rfl, add_comm,
      Multiset.singleton_add, Multiset.erase_cons_head, add_zero]
  · -- the mapping goes if there was one
    show (if mapped then p.maps.erase o else p.maps) = handle p.gState + 0
    rw [hok.maps hgone, hmapped, add_zero]
    cases mapped with
    | true =>
      rw [if_pos rfl, if_pos rfl, add_comm, Multiset.singleton_add, Multiset.erase_cons_head]
    | false => exact add_zero _

/-- What `unmap_state` leaves: what the process is building. -/
theorem unmapState_handles {objects : Nat → Option Object} (hok : ProcOk objects p)
    (hgone : p.gone = false) :
    p.unmapState.fds = p.activity.fds ∧ p.unmapState.maps = p.activity.maps := by
  unfold Proc.unmapState
  simp only [hok.fd, hok.fds hgone, hok.maps hgone]
  cases p.gState with
  | none => exact ⟨zero_add _, zero_add _⟩
  | some o =>
    simp only [handle, Option.elim_some, Multiset.singleton_add, Multiset.erase_cons_head]
    exact ⟨trivial, trivial⟩

/-- `rsm_destroy`. -/
theorem WorldInv.destroy (h : WorldInv w) (hp : w.procs pid = some p) (hgone : p.gone = false)
    (hawake : p.activity = .awake) (ho : w.objects o = some (.live seg)) (unlinks : Bool) :
    WorldInv { (w.setObject o .destroyed).setProc pid p.unmapState with
      name := if unlinks then none else w.name } := by
  have hok := h.procs pid p hp
  obtain ⟨hfds, hmaps⟩ := unmapState_handles hok hgone
  refine h.settle ho Object.noConfusion Object.noConfusion ?_ ⟨rfl, fun o' ho' => ?_,
    fun _ => ⟨rfl, not_asleep_awake hawake⟩, fun o' ho' => ?_, fun _ => ?_, fun _ => ?_⟩
    (not_builds_awake hawake) (h.live_built ho) fun seg' hseg' => Object.noConfusion hseg'
  · -- the name goes unless `shm_unlink` fails
    cases unlinks with
    | true => exact .inr ⟨rfl, rfl⟩
    | false => exact .inl rfl
  · -- nothing is mapped any more
    exact absurd ho' (by simp [Proc.unmapState])
  · exact absurd ho' (by simp [Proc.unmapState])
  · -- the descriptor is closed
    rw [hfds]
    exact (zero_add _).symm
  · -- the segment is unmapped
    rw [hmaps]
    exact (zero_add _).symm

/-- Who has not mapped the object in use is nothing to its segment. -/
theorem view_init (hnone : ∀ pid q, w.procs pid = some q →
      q.at o seg.processCount.toNat = (none, none)) :
    w.view o seg = System.init seg.shared := by
  have hjoin (f : Option (Fin seg.processCount.toNat) × Option (Fin seg.processCount.toNat) →
      Option (Fin seg.processCount.toNat)) (hf : f (none, none) = none) (pid : Int) :
      ((w.procs pid).map fun q => f (q.at o seg.processCount.toNat)).join = none := by
    cases hq : w.procs pid with
    | none => rfl
    | some q =>
      rw [Option.map_some, hnone pid q hq, hf]
      rfl
  simp only [World.view, System.init, System.mk.injEq]
  exact ⟨trivial, funext fun _ => hjoin Prod.fst rfl _, funext fun _ => hjoin Prod.snd rfl _⟩

/-- The end of `rsm_init`. -/
theorem WorldInv.publish (h : WorldInv w) (hp : w.procs pid = some p) (hgone : p.gone = false)
    {sems : Nat} (hact : p.activity = .building o seg (.mapped sems)) :
    WorldInv (w.publish pid p o seg) := by
  have hok := h.procs pid p hp
  have hb : p.Builds o seg := ⟨hgone, _, hact⟩
  obtain ⟨ho, exist, avoid, hinit⟩ := h.builds pid p o seg hp hb
  obtain ⟨hfds, hmaps⟩ := unmapState_handles hok hgone
  have hawake : ∀ a, Activity.awake ≠ .asleep a := fun _ => Activity.noConfusion
  set p' : Proc := { p.unmapState with
    gState := some o, gShmFd := some o, gLocalApid := none, activity := .awake } with hp'
  have hfresh : p'.Fresh := ⟨rfl, hawake⟩
  have hself : (w.setObject o (.live seg)).objects o = some (.live seg) := Function.update_self ..
  refine h.settle ho Object.noConfusion Object.noConfusion (.inl rfl) ⟨rfl, fun o' ho' => ?_,
    fun hnone => absurd hnone (by simp), fun o' ho' hbuilding => ?_, fun _ => ?_, fun _ => ?_⟩
    (not_builds_awake rfl) (fun pid' q seg' hq hb' => h.sole pid' pid q p o seg' seg hq hp hb' hb)
    fun seg' hseg' => ?_
  · obtain rfl := Option.some.inj ho'
    -- the new mapping is of an object that exists
    rw [hself]
    rfl
  · exact Object.noConfusion (h.settled ho Object.noConfusion hbuilding Object.noConfusion).2
  · -- no other object is under construction
    show p.unmapState.fds = {o} + 0
    -- one descriptor is left, and it is the one of the segment
    rw [hfds, hact]
    rfl
  · show p.unmapState.maps = {o} + 0
    -- one mapping is left
    rw [hmaps, hact]
    rfl
  · obtain rfl := Object.live.inj hseg'
    obtain ⟨hs₀, -⟩ := rsmInit_eq_some hinit
    refine ⟨⟨exist, avoid, seg.shared, hinit, ?_⟩, fun a ha => ?_⟩
    · -- whoever has mapped the object by now has called nothing yet
      rw [view_init fun pid' q hq => ?_]
      · exact .init
      · rw [show (World.setProc (w.setObject o (.live seg)) pid p').procs =
          Function.update w.procs pid (some p') from rfl] at hq
        by_cases heq : pid' = pid
        · subst heq
          rw [Function.update_self] at hq
          exact at_fresh (Option.some.inj hq ▸ hfresh) _ _
        · rw [Function.update_of_ne heq] at hq
          by_cases hmapped : q.gState = some o
          · exact at_fresh ((h.procs pid' q hq).early o hmapped ho) _ _
          · simp [Proc.at, hmapped]
    · rw [hs₀] at ha
      exact absurd ha (by simp [initialState])

/-- A started id belongs to the caller, or to whom it did before. -/
theorem run_owner {n m : Nat} (c : Call m) (pid : Int) (g : Option (Fin n))
    (s : RsmSharedState n m) (a : Fin n) (ha : (c.run pid g s).shared.started a = true) :
    (c.run pid g s).shared.apidToPid a = pid ∨
      s.started a = true ∧ (c.run pid g s).shared.apidToPid a = s.apidToPid a := by
  have heffect := c.run_effect pid g s
  generalize c.run pid g s = r at ha heffect
  -- an end frees the row of its caller and leaves the others
  have hended (b : Fin n) (hb : (trySatisfyWaiting (endProcess s b)).started a = true) :
      s.started a = true ∧
        (trySatisfyWaiting (endProcess s b)).apidToPid a = s.apidToPid a := by
    have hsame := trySatisfyWaiting_sameOwners (endProcess s b)
    rw [hsame.started] at hb
    rw [hsame.apidToPid]
    have hne : a ≠ b := fun heq => by
      rw [heq] at hb
      simp [endProcess] at hb
    simp only [endProcess, Function.update_of_ne hne] at hb ⊢
    exact ⟨hb, trivial⟩
  cases heffect with
  | quiet hquiet =>
    cases hquiet with
    | started b hfree =>
      -- the new row belongs to the caller
      by_cases heq : a = b
      · subst heq
        exact .inl (Function.update_self ..)
      · simp only [startProcess, Function.update_of_ne heq] at ha ⊢
        exact .inr ⟨ha, trivial⟩
    | _ => exact .inr ⟨ha, rfl⟩
  | ended b => exact .inr (hended b ha)
  -- a release leaves all owners
  | released b g rel =>
    have hsame := trySatisfyWaiting_sameOwners (giveBack s b rel)
    rw [hsame.started] at ha
    rw [hsame.apidToPid]
    exact .inr ⟨ha, rfl⟩

/-- A call, or the return of `sem_wait`, on the segment in use. -/
theorem WorldInv.use (h : WorldInv w) (hp : w.procs pid = some p) (hgone : p.gone = false)
    (hstate : p.gState = some o) (hhandles : p.activity.fds = 0 ∧ p.activity.maps = 0)
    (ho : w.objects o = some (.live seg)) (g : Option Nat) (act : Activity)
    (hact : act = .awake ∨ ∃ a, act = .asleep a)
    {shared : RsmSharedState seg.processCount.toNat seg.resourceCount.toNat}
    {e : Event seg.resourceCount.toNat}
    (hstep : Step (w.view o seg) e
      { shared := shared
        gLocalApid := Function.update (w.view o seg).gLocalApid pid
          ({ p with gLocalApid := g, activity := act }.cached seg.processCount.toNat)
        asleep := Function.update (w.view o seg).asleep pid
          ({ p with gLocalApid := g, activity := act }.sleepsOn seg.processCount.toNat) })
    (howners : ∀ a, shared.started a = true → shared.apidToPid a = pid ∨
      seg.shared.started a = true ∧ shared.apidToPid a = seg.shared.apidToPid a) :
    WorldInv ((w.setObject o (.live { seg with shared := shared })).setProc pid
      { p with gLocalApid := g, activity := act }) := by
  have hok := h.procs pid p hp
  obtain ⟨⟨exist, avoid, s₀, hinit, hreach⟩, hold⟩ := h.segments o seg ho
  set p' : Proc := { p with gLocalApid := g, activity := act } with hp'
  -- a call builds nothing
  have hdone : ∀ o seg, ¬ p'.Builds o seg := by
    rintro o seg ⟨-, stage, hstage⟩
    rcases hact with heq | ⟨a, heq⟩
    · exact Activity.noConfusion (heq.symm.trans hstage)
    · exact Activity.noConfusion (heq.symm.trans hstage)
  -- asleep or awake, it has nothing open but the segment
  have hnone : act.fds = 0 ∧ act.maps = 0 := by
    rcases hact with rfl | ⟨a, rfl⟩
    · exact ⟨rfl, rfl⟩
    · exact ⟨rfl, rfl⟩
  refine h.settle ho Object.noConfusion Object.noConfusion (.inl rfl) ⟨hok.fd, fun o' ho' => ?_,
    fun hnone => ?_, fun o' ho' hbuilding => ?_, fun _ => ?_, fun _ => ?_⟩ hdone
    (h.live_built ho) fun seg' hseg' => ?_
  · -- what is mapped stays
    exact (Forward.set Object.noConfusion).grow o' (hok.made o' ho')
  · -- the caller has the segment mapped
    exact absurd (hstate.symm.trans hnone) (by simp)
  · -- nothing is under construction
    exact Object.noConfusion (h.settled ho Object.noConfusion hbuilding Object.noConfusion).2
  · -- no descriptor is opened
    show p.fds = handle p.gState + act.fds
    rw [hok.fds hgone, hhandles.1, hnone.1]
  · -- no mapping either
    show p.maps = handle p.gState + act.maps
    rw [hok.maps hgone, hhandles.2, hnone.2]
  · -- the system takes the step that the caller asks for
    obtain rfl := Object.live.inj hseg'
    have hview : (w.setProc pid p').view o { seg with shared := shared } = _ :=
      view_setProc w pid p' o { seg with shared := shared }
    rw [at_mapped (p := p') hstate] at hview
    refine ⟨⟨exist, avoid, s₀, hinit, .step hreach (hview ▸ hstep)⟩, fun a ha => ?_⟩
    show (Function.update w.procs pid (some p') (shared.apidToPid a)).isSome
    -- the owner of a row is the caller, or was its owner before
    by_cases heq : shared.apidToPid a = pid
    · rw [heq, Function.update_self]
      rfl
    · rw [Function.update_of_ne heq]
      obtain ⟨hstarted, hsame⟩ := (howners a ha).resolve_left heq
      rw [hsame]
      exact hold a hstarted

theorem cached_map {n : Nat} (p : Proc) (g : Option (Fin n)) (act : Activity) :
    ({ p with gLocalApid := g.map Fin.val, activity := act } : Proc).cached n = g := by
  cases g with
  | none => rfl
  | some a => exact dif_pos a.isLt

theorem call_live (hstate : p.gState = some o) (ho : w.objects o = some (.live seg))
    (c : UserCall) {r : Result seg.processCount.toNat seg.resourceCount.toNat}
    (hr : (c.on seg.resourceCount.toNat).run pid (p.cached seg.processCount.toNat) seg.shared = r) :
    w.call pid p c = (w.setObject o (.live { seg with shared := r.shared })).setProc pid
      { p with gLocalApid := r.gLocalApid.map Fin.val, activity := r.outcome.activity } := by
  subst hr
  simp only [World.call, World.mapped, hstate, Option.map_some, ho]

/-- A call of the library on the segment in use. -/
theorem WorldInv.callLive (h : WorldInv w) (hp : w.procs pid = some p) (hgone : p.gone = false)
    (hawake : p.activity = .awake) (hstate : p.gState = some o)
    (ho : w.objects o = some (.live seg)) (c : UserCall) : WorldInv (w.call pid p c) := by
  have hsleeps (n : Nat) : p.sleepsOn n = none := by simp [Proc.sleepsOn, hawake]
  have hview := view_of_proc hp o seg
  rw [at_mapped hstate, hsleeps] at hview
  have hcache : (w.view o seg).gLocalApid pid = p.cached seg.processCount.toNat :=
    congrArg Prod.fst hview
  have hidle : (w.view o seg).asleep pid = none := congrArg Prod.snd hview
  -- in the system it is the same call
  have hcall : Step (w.view o seg) _ _ := .call (c.on seg.resourceCount.toNat) hidle
  unfold System.call at hcall
  rw [hcache] at hcall
  set r := (c.on seg.resourceCount.toNat).run pid (p.cached seg.processCount.toNat) seg.shared
    with hr
  have hrun : (c.on seg.resourceCount.toNat).run pid (p.cached seg.processCount.toNat)
      (w.view o seg).shared = r := rfl
  rw [hrun] at hcall
  rw [call_live hstate ho c hr.symm]
  refine h.use hp hgone hstate (by rw [hawake]; exact ⟨rfl, rfl⟩) ho _ _ ?_ (e := .call pid
    (c.on seg.resourceCount.toNat)) ?_ fun a ha => run_owner _ _ _ _ a ha
  · -- it returns or falls asleep on its own semaphore
    cases r.outcome with
    | ret v => exact .inl rfl
    | sleeping a => exact .inr ⟨a, rfl⟩
  · -- the cached id and the sleep are what the call leaves behind
    rw [cached_map]
    convert hcall using 2
    unfold Proc.sleepsOn
    cases hout : r.outcome with
    | ret v =>
      rw [← hidle]
      exact Function.update_eq_self ..
    | sleeping a => exact congrArg _ (dif_pos a.isLt)

/-- The return of `sem_wait`. -/
theorem WorldInv.wakeLive (h : WorldInv w) (hp : w.procs pid = some p) (hgone : p.gone = false)
    {a : Nat} (hasleep : p.activity = .asleep a) (hstate : p.gState = some o)
    (ho : w.objects o = some (.live seg)) {apid : Fin seg.processCount.toNat}
    (hsleeps : p.sleepsOn seg.processCount.toNat = some apid)
    (htoken : 0 < seg.shared.processSem apid) :
    WorldInv ((w.setObject o (.live { seg with shared := { seg.shared with
      processSem := Function.update seg.shared.processSem apid
        (seg.shared.processSem apid - 1) } })).setProc pid { p with activity := .awake }) := by
  have hview := view_of_proc hp o seg
  rw [at_mapped hstate, hsleeps] at hview
  have hcache : (w.view o seg).gLocalApid pid = p.cached seg.processCount.toNat :=
    congrArg Prod.fst hview
  have hwaits : (w.view o seg).asleep pid = some apid := congrArg Prod.snd hview
  refine h.use hp hgone hstate (by rw [hasleep]; exact ⟨rfl, rfl⟩) ho p.gLocalApid .awake (.inl rfl)
    (e := .wake pid) ?_ fun a ha => .inr ⟨ha, rfl⟩
  -- in the system it is the same wake-up
  convert Step.wake hwaits htoken using 1
  -- the cached id is not touched
  have hkept : Function.update (w.view o seg).gLocalApid pid (p.cached seg.processCount.toNat) =
      (w.view o seg).gLocalApid := by
    rw [← hcache]
    exact Function.update_eq_self ..
  exact congrArg (fun g => (⟨_, g, _⟩ : System _ _)) hkept

/-- The process has mapped an object that is not in use yet, or no more. -/
def Stale (w : World) (p : Proc) : Prop :=
  ∃ o, p.gState = some o ∧ (w.objects o = some .building ∨ w.objects o = some .destroyed)

theorem mapped_cases (hok : ProcOk w.objects p) : w.mapped p = none ∨
    (∃ o seg, p.gState = some o ∧ w.objects o = some (.live seg) ∧
      w.mapped p = some (o, some (.live seg))) ∨
    Stale w p ∧ ∃ o obj, (obj = .building ∨ obj = .destroyed) ∧
      w.mapped p = some (o, some obj) := by
  unfold World.mapped
  cases hstate : p.gState with
  | none => exact .inl rfl
  | some o =>
    obtain ⟨obj, ho⟩ := Option.isSome_iff_exists.mp (hok.made o hstate)
    rw [Option.map_some, ho]
    cases obj with
    | building => exact .inr (.inr ⟨⟨o, hstate, .inl ho⟩, o, _, .inl rfl, rfl⟩)
    | live seg => exact .inr (.inl ⟨o, seg, rfl, ho, rfl⟩)
    | destroyed => exact .inr (.inr ⟨⟨o, hstate, .inr ho⟩, o, _, .inr rfl, rfl⟩)

/-- A step keeps the invariant, or a process has touched an object that is not in use. -/
def Leads (w : World) (p : Proc) (w' : World) : Prop :=
  w'.fault = w.fault ∧ WorldInv w' ∨ w'.fault = true ∧ Stale w p

theorem WorldInv.call (h : WorldInv w) (hp : w.procs pid = some p) (hgone : p.gone = false)
    (hawake : p.activity = .awake) (c : UserCall) : Leads w p (w.call pid p c) := by
  rcases mapped_cases (h.procs pid p hp) with hno | ⟨o, seg, hstate, ho, hmapped⟩ |
    ⟨hstale, o, obj, hobj, hmapped⟩
  · unfold World.call
    rw [hno]
    exact .inl ⟨rfl, h⟩
  · refine .inl ⟨?_, h.callLive hp hgone hawake hstate ho c⟩
    unfold World.call
    rw [hmapped]
    rfl
  · unfold World.call
    rw [hmapped]
    rcases hobj with rfl | rfl
    · exact .inr ⟨rfl, hstale⟩
    · exact .inr ⟨rfl, hstale⟩

theorem WorldInv.look (h : WorldInv w) (hp : w.procs pid = some p) : Leads w p (w.look p) := by
  unfold World.look
  rcases mapped_cases (h.procs pid p hp) with hno | ⟨o, seg, hstate, ho, hmapped⟩ |
    ⟨hstale, o, obj, hobj, hmapped⟩
  · rw [hno]
    exact .inl ⟨rfl, h⟩
  · rw [hmapped]
    exact .inl ⟨rfl, h⟩
  · rw [hmapped]
    rcases hobj with rfl | rfl
    · exact .inr ⟨rfl, hstale⟩
    · exact .inr ⟨rfl, hstale⟩

/-- `rsm_destroy`. -/
theorem WorldInv.destroys (h : WorldInv w) (hp : w.procs pid = some p) (hgone : p.gone = false)
    (hawake : p.activity = .awake) (unlinks : Bool) : Leads w p (w.destroy pid p unlinks) := by
  unfold World.destroy
  rcases mapped_cases (h.procs pid p hp) with hno | ⟨o, seg, hstate, ho, hmapped⟩ |
    ⟨hstale, o, obj, hobj, hmapped⟩
  · rw [hno]
    exact .inl ⟨rfl, h⟩
  · rw [hmapped]
    exact .inl ⟨rfl, h.destroy hp hgone hawake ho unlinks⟩
  · rw [hmapped]
    rcases hobj with rfl | rfl
    · exact .inr ⟨rfl, hstale⟩
    · exact .inr ⟨rfl, hstale⟩

theorem wake_live (hok : ProcOk w.objects p) {w' : World} (hwake : w.wake pid p = some w') :
    ∃ o seg, ∃ apid : Fin seg.processCount.toNat, p.gState = some o ∧
      w.objects o = some (.live seg) ∧ p.sleepsOn seg.processCount.toNat = some apid ∧
      0 < seg.shared.processSem apid ∧
      w' = (w.setObject o (.live { seg with shared := { seg.shared with
        processSem := Function.update seg.shared.processSem apid
          (seg.shared.processSem apid - 1) } })).setProc pid { p with activity := .awake } := by
  unfold World.wake at hwake
  rcases mapped_cases hok with hno | ⟨o, seg, hstate, ho, hmapped⟩ | ⟨-, o, obj, hobj, hmapped⟩
  · rw [hno] at hwake
    exact absurd hwake (by simp)
  · rw [hmapped] at hwake
    cases hsleeps : p.sleepsOn seg.processCount.toNat with
    | none => simp [hsleeps] at hwake
    | some apid =>
      simp only [hsleeps] at hwake
      split at hwake
      · next htoken =>
        exact ⟨o, seg, apid, hstate, ho, hsleeps, htoken, (Option.some.inj hwake).symm⟩
      · exact absurd hwake (by simp)
  · rw [hmapped] at hwake
    rcases hobj with rfl | rfl
    · exact absurd hwake (by simp)
    · exact absurd hwake (by simp)

theorem WorldInv.wakes (h : WorldInv w) (hp : w.procs pid = some p) (hgone : p.gone = false)
    {a : Nat} (hasleep : p.activity = .asleep a) {w' : World} (hwake : w.wake pid p = some w') :
    w'.fault = w.fault ∧ WorldInv w' := by
  obtain ⟨o, seg, apid, hstate, ho, hsleeps, htoken, rfl⟩ := wake_live (h.procs pid p hp) hwake
  exact ⟨rfl, h.wakeLive hp hgone hasleep hstate ho hsleeps htoken⟩

/-- `rsm_init` up to `shm_open`. -/
theorem WorldInv.initStart (h : WorldInv w) (hp : w.procs pid = some p) (hgone : p.gone = false)
    (hawake : p.activity = .awake) (pCount rCount : Int) (exist : Nat → Int) (avoid : Int)
    (opens : Bool) : Leads w p (w.initStart pid p pCount rCount exist avoid opens) := by
  unfold World.initStart
  cases hinit : rsmInit pCount rCount (fun j => exist j) avoid with
  | none => exact .inl ⟨rfl, h⟩
  | some s₀ =>
    cases hname : w.name with
    | some o => exact .inl ⟨rfl, h⟩
    | none =>
      cases opens with
      | false => exact .inl ⟨rfl, h⟩
      | true =>
        exact .inl ⟨rfl, h.create hp hawake hgone hname
          (⟨_, avoid, hinit⟩ : Segment.Initial ⟨pCount, rCount, s₀⟩)⟩

/-- The next system call of `rsm_init`. -/
theorem WorldInv.initNext (h : WorldInv w) (hp : w.procs pid = some p) (hgone : p.gone = false)
    {stage : Stage} (hact : p.activity = .building o seg stage) (ok unlinks : Bool) :
    Leads w p (w.initNext pid p o seg stage ok unlinks) := by
  have hok := h.procs pid p hp
  unfold World.initNext
  cases stage with
  | opened =>
    cases ok with
    | false => exact .inl ⟨rfl, h.giveUp hp hgone hact (by rw [hact]; rfl) unlinks⟩
    | true =>
      refine .inl ⟨rfl, h.stage hp hgone hact ?_⟩
      rw [hok.maps hgone, hact]
      rfl
  | sized =>
    cases ok with
    | false => exact .inl ⟨rfl, h.giveUp hp hgone hact (by rw [hact]; rfl) unlinks⟩
    | true =>
      refine .inl ⟨rfl, h.stage hp hgone hact ?_⟩
      rw [hok.maps hgone, hact, show (Activity.building o seg .sized).maps = 0 from rfl, add_zero,
        ← Multiset.singleton_add, add_comm]
      rfl
  | mapped sems =>
    cases ok with
    | false => exact .inl ⟨rfl, h.giveUp hp hgone hact (by rw [hact]; rfl) unlinks⟩
    | true =>
      simp only [Bool.not_true, Bool.false_eq_true, if_false]
      split
      · refine .inl ⟨rfl, h.stage hp hgone hact ?_⟩
        rw [hok.maps hgone, hact]
        rfl
      · exact .inl ⟨rfl, h.publish hp hgone hact⟩

end Objects

/-! ## Steps and runs -/

section Runs

variable {w w' : World} {pid : Int} {a : Act}

theorem boot_proc {root pid : Int} {p : Proc} (hp : (World.boot root).procs pid = some p) :
    p = ⟨none, none, none, .awake, 0, 0, false⟩ := by
  simp only [World.boot, Function.update_apply] at hp
  split at hp
  · exact (Option.some.inj hp).symm
  · exact absurd hp (by simp)

theorem WorldInv.boot (root : Int) : WorldInv (World.boot root) where
  unmade _ _ := rfl
  named o ho := absurd ho (by simp [World.boot])
  live_named o seg ho := absurd ho (by simp [World.boot])
  building_named o ho := absurd ho (by simp [World.boot])
  builds pid p o seg hp hb := by
    rw [boot_proc hp] at hb
    exact absurd hb (not_builds_awake rfl o seg)
  sole pid pid' p p' o seg seg' hp _ hb := by
    rw [boot_proc hp] at hb
    exact absurd hb (not_builds_awake rfl o seg)
  procs pid p hp := by
    rw [boot_proc hp]
    exact ⟨rfl, fun _ ho => absurd ho (by simp), fun _ => ⟨rfl, not_asleep_awake rfl⟩,
      fun _ ho => absurd ho (by simp), fun _ => rfl, fun _ => rfl⟩
  segments o seg ho := absurd ho (by simp [World.boot])

/-- What a step of the process `p` with the number `pid` can be. -/
inductive Moved (w : World) (pid : Int) (p : Proc) : Act → World → Prop
  | exit : Moved w pid p .exit (w.setProc pid { p with fds := 0, maps := 0, gone := true })
  | init (hawake : p.activity = .awake) (pCount rCount : Int) (exist : Nat → Int) (avoid : Int)
      (opens : Bool) : Moved w pid p (.init pCount rCount exist avoid opens)
        (w.initStart pid p pCount rCount exist avoid opens)
  | initNext {o : Nat} {seg : Segment} {stage : Stage} (hact : p.activity = .building o seg stage)
      (ok unlinks : Bool) :
      Moved w pid p (.initNext ok unlinks) (w.initNext pid p o seg stage ok unlinks)
  | map (hawake : p.activity = .awake) (opens maps : Bool) :
      Moved w pid p (.map opens maps) (w.setProc pid (p.mapExistingState w.name opens maps))
  | call (hawake : p.activity = .awake) (c : UserCall) : Moved w pid p (.call c) (w.call pid p c)
  | look (hawake : p.activity = .awake) : Moved w pid p .look (w.look p)
  | wake {a : Nat} (hasleep : p.activity = .asleep a) {w' : World}
      (hwake : w.wake pid p = some w') : Moved w pid p .wake w'
  | destroy (hawake : p.activity = .awake) (unlinks : Bool) :
      Moved w pid p (.destroy unlinks) (w.destroy pid p unlinks)
  | fork (hawake : p.activity = .awake) {child : Int} (hchild : w.procs child = none) :
      Moved w pid p (.fork child) (w.setProc child p)

theorem step_moved (hstep : w.step pid a = some w') :
    ∃ p, w.procs pid = some p ∧ w.fault = false ∧ p.gone = false ∧ Moved w pid p a w' := by
  unfold World.step at hstep
  cases hp : w.procs pid with
  | none =>
    rw [hp] at hstep
    exact absurd hstep (by simp)
  | some p =>
    rw [hp] at hstep
    simp only at hstep
    split at hstep
    · exact absurd hstep (by simp)
    next hgoes =>
    obtain ⟨hfault, hgone⟩ : w.fault = false ∧ p.gone = false := by simpa using hgoes
    refine ⟨p, rfl, hfault, hgone, ?_⟩
    have hexit : Moved w pid p .exit _ := .exit
    cases hact : p.activity with
    | awake =>
      rw [hact] at hstep hexit
      cases a with
      | init pCount rCount exist avoid opens =>
        obtain rfl := Option.some.inj hstep
        exact .init hact pCount rCount exist avoid opens
      | initNext => exact absurd hstep (by simp)
      | map opens maps =>
        obtain rfl := Option.some.inj hstep
        exact .map hact opens maps
      | call c =>
        obtain rfl := Option.some.inj hstep
        exact .call hact c
      | look =>
        obtain rfl := Option.some.inj hstep
        exact .look hact
      | wake => exact absurd hstep (by simp)
      | destroy unlinks =>
        obtain rfl := Option.some.inj hstep
        exact .destroy hact unlinks
      | fork child =>
        simp only at hstep
        split at hstep
        · exact absurd hstep (by simp)
        next hchild =>
        obtain rfl := Option.some.inj hstep
        exact .fork hact (Option.not_isSome_iff_eq_none.mp hchild)
      | exit =>
        obtain rfl := Option.some.inj hstep
        exact hexit
    | building o seg stage =>
      rw [hact] at hstep hexit
      cases a with
      | initNext ok unlinks =>
        obtain rfl := Option.some.inj hstep
        exact .initNext hact ok unlinks
      | exit =>
        obtain rfl := Option.some.inj hstep
        exact hexit
      | _ => exact absurd hstep (by simp)
    | asleep apid =>
      rw [hact] at hstep hexit
      cases a with
      | wake => exact .wake hact hstep
      | exit =>
        obtain rfl := Option.some.inj hstep
        exact hexit
      | _ => exact absurd hstep (by simp)

/-- Every step of a process. -/
theorem WorldInv.moved (h : WorldInv w) {p : Proc} (hp : w.procs pid = some p)
    (hgone : p.gone = false) (hmoved : Moved w pid p a w') : Leads w p w' := by
  cases hmoved with
  | exit => exact .inl ⟨rfl, h.exit hp⟩
  | init hawake pCount rCount exist avoid opens =>
    exact h.initStart hp hgone hawake pCount rCount exist avoid opens
  | initNext hact ok unlinks => exact h.initNext hp hgone hact ok unlinks
  | map hawake opens maps => exact .inl ⟨rfl, h.map hp hawake opens maps⟩
  | call hawake c => exact h.call hp hgone hawake c
  | look => exact h.look hp
  | wake hasleep hwake => exact .inl (h.wakes hp hgone hasleep hwake)
  | destroy hawake unlinks => exact h.destroys hp hgone hawake unlinks
  | fork hawake hchild => exact .inl ⟨rfl, h.fork hp hawake hchild⟩

theorem run_append (w : World) (acts : List (Int × Act)) (pid : Int) (a : Act) :
    w.run (acts ++ [(pid, a)]) = (w.run acts).bind fun w => w.step pid a := by
  induction acts generalizing w with
  | nil =>
    show (w.step pid a).bind (fun w => some w) = w.step pid a
    exact Option.bind_fun_some _
  | cons e acts ih =>
    show (w.step e.1 e.2).bind (fun w => w.run (acts ++ [(pid, a)])) = _
    simp only [ih]
    exact (Option.bind_assoc ..).symm

/-- In every run, the invariant holds until somebody touches an object that is not in use. -/
theorem WorldInv.run (root : Int) (acts : List (Int × Act)) {w : World}
    (hrun : (World.boot root).run acts = some w) :
    w.fault = false ∧ WorldInv w ∨
      w.fault = true ∧ ∃ acts' pid a w₀ p, acts = acts' ++ [(pid, a)] ∧
        (World.boot root).run acts' = some w₀ ∧ w₀.procs pid = some p ∧ Stale w₀ p := by
  induction acts using List.reverseRecOn generalizing w with
  | nil =>
    obtain rfl := Option.some.inj hrun
    exact .inl ⟨rfl, WorldInv.boot root⟩
  | append_singleton acts e ih =>
    obtain ⟨pid, a⟩ := e
    rw [run_append, Option.bind_eq_some_iff] at hrun
    obtain ⟨w₀, hrun₀, hstep⟩ := hrun
    rcases ih hrun₀ with ⟨hfault, hinv⟩ | ⟨hfault, -⟩
    · obtain ⟨p, hp, -, hgone, hmoved⟩ := step_moved hstep
      rcases hinv.moved hp hgone hmoved with ⟨hsame, hinv'⟩ | ⟨hbad, hstale⟩
      · exact .inl ⟨hsame.trans hfault, hinv'⟩
      · exact .inr ⟨hbad, acts, pid, a, w₀, p, rfl, hrun₀, hp, hstale⟩
    · -- nothing is said about a world at fault
      obtain ⟨-, -, hnofault, -⟩ := step_moved hstep
      exact absurd (hfault.symm.trans hnofault) (by simp)

end Runs

/-! ## Careful programs -/

/-- How the test programs use the library: nobody maps an object that is under construction,
`rsm_destroy` is called when nobody else has the segment mapped, and `shm_unlink` works. -/
def Act.Careful (w : World) (pid : Int) : Act → Prop
  | .map _ _ => ∀ o, w.name = some o → w.objects o ≠ some .building
  | .initNext _ unlinks => unlinks = true
  | .destroy unlinks => unlinks = true ∧ ∀ pid' p, pid' ≠ pid → w.procs pid' = some p →
      p.gone = false → p.gState = none
  | _ => True

/-- What is mapped is in use. -/
structure Tidy (w : World) : Prop where
  named : ∀ o, w.name = some o → w.objects o ≠ some .destroyed
  mapped : ∀ pid p o, w.procs pid = some p → p.gone = false → p.gState = some o →
    ∃ seg, w.objects o = some (.live seg)

section Careful

variable {w w' : World} {pid : Int} {p p' : Proc} {o : Nat} {seg : Segment} {a : Act}

theorem Tidy.not_stale (h : Tidy w) (hp : w.procs pid = some p) (hgone : p.gone = false) :
    ¬ Stale w p := by
  rintro ⟨o, hstate, hbuilding | hdestroyed⟩
  · obtain ⟨seg, hlive⟩ := h.mapped pid p o hp hgone hstate
    exact absurd (hlive.symm.trans hbuilding) (by simp)
  · obtain ⟨seg, hlive⟩ := h.mapped pid p o hp hgone hstate
    exact absurd (hlive.symm.trans hdestroyed) (by simp)

/-- One process is replaced, and what the others have mapped stays in use. -/
theorem Tidy.replace (h : Tidy w) (hprocs : w'.procs = Function.update w.procs pid (some p'))
    (hnamed : ∀ o, w'.name = some o → w'.objects o ≠ some .destroyed)
    (hself : p'.gone = false → ∀ o, p'.gState = some o → ∃ seg, w'.objects o = some (.live seg))
    (hothers : ∀ pid' q o seg, pid' ≠ pid → w.procs pid' = some q → q.gone = false →
      q.gState = some o → w.objects o = some (.live seg) → ∃ seg, w'.objects o = some (.live seg)) :
    Tidy w' where
  named := hnamed
  mapped pid' q o hq hgone hstate := by
    rw [hprocs] at hq
    by_cases heq : pid' = pid
    · subst heq
      rw [Function.update_self] at hq
      obtain rfl := Option.some.inj hq
      exact hself hgone o hstate
    · rw [Function.update_of_ne heq] at hq
      obtain ⟨seg, hlive⟩ := h.mapped pid' q o hq hgone hstate
      exact hothers pid' q o seg heq hq hgone hstate hlive

/-- The objects stay, and so does what is mapped. -/
theorem Tidy.setProc (h : Tidy w) (hp : w.procs pid = some p)
    (hgone : p'.gone = false → p.gone = false) (hstate : p'.gState = p.gState) :
    Tidy (w.setProc pid p') := by
  refine h.replace rfl h.named (fun hg o ho => ?_) fun pid' q o seg _ _ _ _ hlive => ⟨seg, hlive⟩
  exact h.mapped pid p o hp (hgone hg) (hstate ▸ ho)

/-- An object is in use from now on, or still. -/
theorem Tidy.use (h : Tidy w) (hp : w.procs pid = some p) (hgone : p'.gone = false → p.gone = false)
    (hstate : p'.gState = some o ∨ p'.gState = p.gState) (seg : Segment) :
    Tidy ((w.setObject o (.live seg)).setProc pid p') := by
  have hlive : ∀ o' seg', w.objects o' = some (.live seg') →
      ∃ seg'', (w.setObject o (.live seg)).objects o' = some (.live seg'') := by
    intro o' seg' hold
    rw [objects_setObject]
    split
    · exact ⟨seg, rfl⟩
    · exact ⟨seg', hold⟩
  refine h.replace rfl (fun o' ho' => ?_) (fun hg o' ho' => ?_)
    fun pid' q o' seg' _ _ _ _ hold => hlive o' seg' hold
  · show (w.setObject o (.live seg)).objects o' ≠ some .destroyed
    rw [objects_setObject]
    split
    · simp
    · exact h.named o' ho'
  · rcases hstate with heq | heq
    · obtain rfl := Option.some.inj (heq.symm.trans ho')
      exact ⟨seg, Function.update_self ..⟩
    · obtain ⟨seg', hold⟩ := h.mapped pid p o' hp (hgone hg) (heq ▸ ho')
      exact hlive o' seg' hold

/-- An object that nobody else has mapped goes out of use, and the name with it. -/
theorem Tidy.retire (h : Tidy w) (hp : w.procs pid = some p) (hgone : p.gone = false)
    (hself : ∀ o', p'.gState = some o' → p.gState = some o' ∧ o' ≠ o)
    (hothers : ∀ pid' q, pid' ≠ pid → w.procs pid' = some q → q.gone = false →
      q.gState ≠ some o) :
    Tidy { (w.setObject o .destroyed).setProc pid p' with name := none } := by
  have hkept : ∀ o' seg', o' ≠ o → w.objects o' = some (.live seg') →
      ∃ seg'', (w.setObject o .destroyed).objects o' = some (.live seg'') :=
    fun o' seg' hne hold => ⟨seg', by rw [objects_setObject, if_neg hne]; exact hold⟩
  refine h.replace rfl (fun o' ho' => absurd ho' (by simp)) (fun _ o' ho' => ?_)
    fun pid' q o' seg' hne hq hg hstate hold => ?_
  · obtain ⟨hold, hne⟩ := hself o' ho'
    obtain ⟨seg', hlive⟩ := h.mapped pid p o' hp hgone hold
    exact hkept o' seg' hne hlive
  · exact hkept o' seg' (fun heq => hothers pid' q hne hq hg (heq ▸ hstate)) hold

/-- `map_existing_state`. -/
theorem Tidy.map (h : Tidy w) (hinv : WorldInv w) (hp : w.procs pid = some p) (opens maps : Bool)
    (hcareful : ∀ o, w.name = some o → w.objects o ≠ some .building) :
    Tidy (w.setProc pid (p.mapExistingState w.name opens maps)) := by
  have hok := hinv.procs pid p hp
  have hsame : Tidy (w.setProc pid p) := h.setProc hp (fun hg => hg) rfl
  by_cases hmapped : p.gState.isSome
  · unfold Proc.mapExistingState
    rw [if_pos hmapped]
    exact hsame
  · have hstate : p.gState = none := Option.not_isSome_iff_eq_none.mp hmapped
    rcases mapExistingState_cases hstate (hok.fd.trans hstate) w.name opens maps with
      heq | ⟨o, hname, heq⟩
    · rw [heq]
      exact hsame
    · rw [heq]
      refine h.replace rfl h.named (fun _ o' ho' => ?_)
        fun pid' q o' seg _ _ _ _ hlive => ⟨seg, hlive⟩
      obtain rfl := Option.some.inj ho'
      obtain ⟨obj, ho⟩ := Option.isSome_iff_exists.mp (hinv.named o hname)
      cases obj with
      | building => exact absurd ho (hcareful o hname)
      | live seg => exact ⟨seg, ho⟩
      | destroyed => exact absurd ho (h.named o hname)

/-- `rsm_init` up to `shm_open`. -/
theorem Tidy.initStart (h : Tidy w) (hinv : WorldInv w) (hp : w.procs pid = some p)
    (hgone : p.gone = false) (pCount rCount : Int) (exist : Nat → Int) (avoid : Int)
    (opens : Bool) : Tidy (w.initStart pid p pCount rCount exist avoid opens) := by
  unfold World.initStart
  split
  · exact h
  split
  · exact h
  -- what is mapped is older
  have hkept : ∀ o seg, w.objects o = some (.live seg) →
      ∃ seg, (w.setObject w.count .building).objects o = some (.live seg) := by
    intro o seg hlive
    have hne : o ≠ w.count := fun heq => by
      rw [heq, hinv.unmade w.count (Nat.le_refl _)] at hlive
      exact absurd hlive (by simp)
    exact ⟨seg, by rw [objects_setObject, if_neg hne]; exact hlive⟩
  refine h.replace rfl (fun o ho => ?_) (fun _ o ho => ?_)
    fun pid' q o seg _ _ _ _ hlive => hkept o seg hlive
  · obtain rfl := Option.some.inj ho
    show (w.setObject w.count .building).objects w.count ≠ _
    rw [objects_setObject, if_pos rfl]
    simp
  · obtain ⟨seg, hlive⟩ := h.mapped pid p o hp hgone ho
    exact hkept o seg hlive

/-- The next system call of `rsm_init`. -/
theorem Tidy.initNext (h : Tidy w) (hinv : WorldInv w) (hp : w.procs pid = some p)
    (hgone : p.gone = false) {stage : Stage} (hact : p.activity = .building o seg stage)
    (ok : Bool) : Tidy (w.initNext pid p o seg stage ok true) := by
  -- nobody has mapped the object yet
  have hbuilding := (hinv.builds pid p o seg hp ⟨hgone, stage, hact⟩).1
  have hnot : ∀ pid' q, w.procs pid' = some q → q.gone = false → q.gState ≠ some o :=
    fun pid' q hq hg hstate => by
      obtain ⟨seg', hlive⟩ := h.mapped pid' q o hq hg hstate
      exact absurd (hlive.symm.trans hbuilding) (by simp)
  have hgiveUp (mapped : Bool) : Tidy (w.giveUp pid p o mapped true) :=
    h.retire hp hgone (fun o' ho' => ⟨ho', fun heq => hnot pid p hp hgone (heq ▸ ho')⟩)
      fun pid' q _ hq hg => hnot pid' q hq hg
  have hstage (activity : Activity) (maps : Multiset Nat) :
      Tidy (w.setProc pid { p with activity := activity, maps := maps }) :=
    h.setProc hp (fun hg => hg) rfl
  unfold World.initNext
  cases stage with
  | opened =>
    cases ok with
    | false => exact hgiveUp false
    | true => exact hstage _ _
  | sized =>
    cases ok with
    | false => exact hgiveUp false
    | true => exact hstage _ _
  | mapped sems =>
    cases ok with
    | false => exact hgiveUp true
    | true =>
      simp only [Bool.not_true, Bool.false_eq_true, if_false]
      split
      · exact hstage _ _
      · exact h.use hp (fun _ => hgone) (.inl rfl) seg

/-- A careful step keeps what is mapped in use. -/
theorem Tidy.moved (h : Tidy w) (hinv : WorldInv w) (hp : w.procs pid = some p)
    (hgone : p.gone = false) (hmoved : Moved w pid p a w') (hcareful : a.Careful w pid) :
    Tidy w' := by
  have hok := hinv.procs pid p hp
  have hfresh := h.not_stale hp hgone
  cases hmoved with
  | exit => exact h.setProc hp (fun _ => hgone) rfl
  | init _ pCount rCount exist avoid opens =>
    exact h.initStart hinv hp hgone pCount rCount exist avoid opens
  | initNext hact ok unlinks =>
    obtain rfl : unlinks = true := hcareful
    exact h.initNext hinv hp hgone hact ok
  | map hawake opens maps => exact h.map hinv hp opens maps hcareful
  | call hawake c =>
    rcases mapped_cases hok with hno | ⟨o, seg, hstate, ho, -⟩ | ⟨hstale, -⟩
    · unfold World.call
      rw [hno]
      exact h
    · rw [call_live hstate ho c rfl]
      refine h.use hp (fun _ => hgone) ?_ _
      exact .inr rfl
    · exact absurd hstale hfresh
  | look hawake =>
    unfold World.look
    rcases mapped_cases hok with hno | ⟨o, seg, -, -, hmapped⟩ | ⟨hstale, -⟩
    · rw [hno]
      exact h
    · rw [hmapped]
      exact h
    · exact absurd hstale hfresh
  | wake hasleep hwake =>
    obtain ⟨o, seg, apid, -, -, -, -, rfl⟩ := wake_live hok hwake
    refine h.use hp (fun _ => hgone) ?_ _
    exact .inr rfl
  | destroy hawake unlinks =>
    obtain ⟨rfl, halone⟩ := hcareful
    unfold World.destroy
    rcases mapped_cases hok with hno | ⟨o, seg, -, -, hmapped⟩ | ⟨hstale, -⟩
    · rw [hno]
      exact h
    · rw [hmapped]
      refine h.retire hp hgone (fun o' ho' => absurd ho' (by simp [Proc.unmapState]))
        fun pid' q hne hq hg heq => ?_
      exact absurd ((halone pid' q hne hq hg).symm.trans heq) (by simp)
    · exact absurd hstale hfresh
  | fork hawake hchild =>
    refine h.replace rfl h.named (fun hg o ho => h.mapped pid p o hp hg ho)
      fun pid' q o seg _ _ _ _ hlive => ⟨seg, hlive⟩

theorem Tidy.boot (root : Int) : Tidy (World.boot root) where
  named _ ho := absurd ho (by simp [World.boot])
  mapped pid p o hp _ ho := by
    rw [boot_proc hp] at ho
    exact absurd ho (by simp)

theorem Tidy.run (root : Int) (acts : List (Int × Act))
    (hcareful : ∀ acts' pid a rest w₀, acts = acts' ++ (pid, a) :: rest →
      (World.boot root).run acts' = some w₀ → a.Careful w₀ pid)
    {w : World} (hrun : (World.boot root).run acts = some w) : w.fault = false ∧ Tidy w := by
  induction acts using List.reverseRecOn generalizing w with
  | nil =>
    obtain rfl := Option.some.inj hrun
    exact ⟨rfl, Tidy.boot root⟩
  | append_singleton acts e ih =>
    obtain ⟨pid, a⟩ := e
    rw [run_append, Option.bind_eq_some_iff] at hrun
    obtain ⟨w₀, hrun₀, hstep⟩ := hrun
    obtain ⟨hfault, htidy⟩ := ih (fun acts' pid' a' rest w₁ heq => hcareful acts' pid' a'
      (rest ++ [(pid, a)]) w₁ (by rw [heq, List.append_assoc]; rfl)) hrun₀
    rcases WorldInv.run root acts hrun₀ with ⟨-, hinv⟩ | ⟨hbad, -⟩
    · obtain ⟨p, hp, -, hgone, hmoved⟩ := step_moved hstep
      have htidy' := htidy.moved hinv hp hgone hmoved (hcareful acts pid a [] w₀ rfl hrun₀)
      rcases hinv.moved hp hgone hmoved with ⟨hsame, -⟩ | ⟨-, hstale⟩
      · exact ⟨hsame.trans hfault, htidy'⟩
      · exact absurd hstale (htidy.not_stale hp hgone)
    · exact absurd (hbad.symm.trans hfault) (by simp)

end Careful

/-! ## Main result -/

/-- What the processes share, and what they have open. -/
structure Sharing (w : World) : Prop where
  segments : ∀ o seg, w.objects o = some (.live seg) → w.name = some o ∧ Refines w o seg
  handles : ∀ pid p, w.procs pid = some p → p.gone = false → p.gShmFd = p.gState ∧
    p.fds = handle p.gState + p.activity.fds ∧ p.maps = handle p.gState + p.activity.maps

/-- **The segment refines the system.** Whatever fails and however the processes take turns, as
long as nobody touches an object that is not in use, the one in use is the one of the name,
it has gone through a run of `System` since its `rsm_init`, and nothing is left open. Careful
programs never touch another. -/
theorem segments_refine (root : Int) (acts : List (Int × Act)) {w : World}
    (hrun : (World.boot root).run acts = some w) :
    (w.fault = false → Sharing w) ∧
    (w.fault = true → ∃ acts' pid a w₀ p, acts = acts' ++ [(pid, a)] ∧
      (World.boot root).run acts' = some w₀ ∧ w₀.procs pid = some p ∧ Stale w₀ p) ∧
    ((∀ acts' pid a rest w₀, acts = acts' ++ (pid, a) :: rest →
      (World.boot root).run acts' = some w₀ → a.Careful w₀ pid) → w.fault = false) := by
  refine ⟨fun hfault => ?_, fun hfault => ?_, fun hcareful =>
    (Tidy.run root acts hcareful hrun).1⟩
  · rcases WorldInv.run root acts hrun with ⟨-, hinv⟩ | ⟨hbad, -⟩
    · refine ⟨fun o seg ho => ⟨hinv.live_named o seg ho, (hinv.segments o seg ho).refines⟩,
        fun pid p hp hgone => ?_⟩
      have hok := hinv.procs pid p hp
      exact ⟨hok.fd, hok.fds hgone, hok.maps hgone⟩
    · exact absurd (hbad.symm.trans hfault) (by simp)
  · rcases WorldInv.run root acts hrun with ⟨hgood, -⟩ | ⟨-, hlast⟩
    · exact absurd (hfault.symm.trans hgood) (by simp)
    · exact hlast

/-- Two segments, one after the other; the first `rsm_init` fails in its last call. In the end a
child calls the library behind the `rsm_destroy` of its parent. -/
def demoActs : List (Int × Act) :=
  let init : Act := .init 1 1 (fun _ => 1) 0 true
  let next : Act := .initNext true true
  [(1, init), (1, next), (1, next), (1, next), (1, .initNext false true),
    (1, init), (1, next), (1, next), (1, next), (1, next), (1, .fork 2),
    (2, .map true true), (2, .call (.processStarted 0)), (1, init), (1, .look), (2, .exit),
    (1, .destroy true), (1, .fork 3), (1, init), (1, next), (1, next), (1, next), (1, next),
    (3, .map true true), (3, .call (.processStarted 0)), (3, .call (.request fun _ => 1)),
    (1, .destroy true), (3, .call .processEnded)]

/-- Until the second `rsm_destroy` all is well. -/
theorem segments_refine_demo :
    (∃ w, (World.boot 1).run (demoActs.take 26) = some w ∧ w.name = some 2 ∧ Sharing w) ∧
    ∃ w, (World.boot 1).run demoActs = some w ∧ ∃ acts' pid a w₀ p, demoActs = acts' ++ [(pid, a)] ∧
      (World.boot 1).run acts' = some w₀ ∧ w₀.procs pid = some p ∧ Stale w₀ p := by
  constructor
  · have hresult : ((World.boot 1).run (demoActs.take 26)).map (fun w => (w.fault, w.name)) =
        some (false, some 2) := by
      decide +kernel
    obtain ⟨w, hrun, hw⟩ := Option.map_eq_some_iff.mp hresult
    obtain ⟨hfault, hname⟩ := Prod.mk.inj hw
    exact ⟨w, hrun, hname, (segments_refine 1 _ hrun).1 hfault⟩
  · have hresult : ((World.boot 1).run demoActs).map (fun w => w.fault) = some true := by
      decide +kernel
    obtain ⟨w, hrun, hfault⟩ := Option.map_eq_some_iff.mp hresult
    exact ⟨w, hrun, (segments_refine 1 _ hrun).2.1 hfault⟩

end OsProjects.Rsm
